import Primer.Machine.Run
import Primer.Proofs.Machine.Division

/-!
# The machine in words and blocks

The machine counts with natural numbers, it keeps a tail of the code instead
of a position in it, and it has a store for the arguments that are set aside.
Here is the same machine with what these stand for: positions and the number
of steps are words, and the arguments are in one block of memory, which has a
place for every index up to the greatest. Additions have a guard, and so have
the correction of a quotient and every access to a block. Where a guard fails
the machine *breaks down* (`Concrete.Breakdown`), which is no way for a run to
end.

All else is as it is on the machine, and an instruction that computes neither
with positions nor with blocks does the same in both.
-/

namespace Primer

/-! ## Positions in the code -/

namespace Code

/-- The position of the last instruction that is this label. -/
def position? (name : Label) : Code → Option Nat
  | [] => none
  | i :: rest =>
    match position? name rest with
    | some position => some (position + 1)
    | none => if i = .label name then some 0 else none

/-- A position is within the code. -/
theorem position?_lt {name : Label} {code : Code} {position : Nat}
    (h : position? name code = some position) : position < code.length := by
  induction code generalizing position with
  | nil => cases h
  | cons i rest ih =>
    rw [position?] at h
    split at h
    · next hrest =>
      cases h
      exact Nat.succ_lt_succ (ih hrest)
    · split at h
      · cases h
        exact Nat.succ_pos _
      · cases h

/-- The code from a label on is what is left at its position. -/
theorem atLabel?_eq_map_drop (name : Label) (code : Code) :
    atLabel? name code = (position? name code).map code.drop := by
  induction code with
  | nil => rfl
  | cons i rest ih =>
    rw [atLabel?, position?, ih]
    cases position? name rest with
    | some position => rfl
    | none =>
      simp only [Option.map_none]
      split <;> rfl

end Code

namespace Concrete

/-! ## Words and blocks -/

/-- **Why the machine breaks down.** -/
inductive Breakdown where
  /-- A sum or a difference is no word. -/
  | overflow
  /-- A block is accessed beyond its end. -/
  | outOfBounds
  /-- No block is large enough. -/
  | outOfMemory
  deriving DecidableEq

/-- **How a run ends**, if the machine can break down. -/
inductive Outcome where
  /-- The main routine ended. -/
  | finished
  /-- An instruction could not be executed, or the limit was reached. -/
  | failed (error : RuntimeError)
  /-- The machine broke down. -/
  | broken (why : Breakdown)
  deriving DecidableEq

/-- The result of an attempt, or how the run ends there. -/
abbrev Attempt := Except Outcome

/-- The machine breaks down. -/
def breakDown {α : Type} (why : Breakdown) : Attempt α := .error (.broken why)

/-- The value, or else the end of the run. -/
def orEnd {α : Type} (value? : Option α) (outcome : Outcome) : Attempt α :=
  match value? with
  | some value => .ok value
  | none => .error outcome

/-- **The sum of two words**, if it is a word. -/
def sum (m n : Nat) : Attempt Nat :=
  if m + n < UInt64.size then .ok (m + n) else breakDown .overflow

/-- The quotient, if its correction is a word. -/
def quotient (a b : Int64) : Attempt Int64 :=
  orEnd (floorDiv? a b) (.broken .overflow)

/-- The result of an operation in a routine. -/
def compute (op : ArithOp) (a b : Int64) (routine : Ident) : Attempt Int64 :=
  match op with
  | .add => return a + b
  | .sub => return a - b
  | .mul => return a * b
  | .div =>
    if b = 0 then .error (.failed (.divisionByZero routine))
    else quotient a b
  | .mod =>
    if b = 0 then .error (.failed (.divisionByZero routine))
    else return a - (← quotient a b) * b

/-- **A block of memory** for arguments. Not every place is filled. -/
abbrev Block := List (Option Value)

namespace Block

/-- A block with places added up to a size. -/
def grow (block : Block) (size : Nat) : Attempt Block :=
  if size ≤ argumentRoom then
    .ok (block ++ List.replicate (size - block.length) none)
  else breakDown .outOfMemory

/-- A block with a place filled. -/
def fill (block : Block) (index : Nat) (value : Value) : Attempt Block :=
  if index < block.length then .ok (block.set index (some value))
  else breakDown .outOfBounds

/-- **Sets an argument aside.** -/
def setAside (block : Block) (index : Nat) (value : Value) :
    Attempt Block := do
  let block ←
    if block.length ≤ index then do
      let size ← sum index 1
      block.grow size
    else pure block
  block.fill index value

/-- The values of a block whose first place has this index, or the first index
whose place is not filled. -/
def values (index : Nat) : Block → Except Nat (List Value)
  | [] => .ok []
  | none :: _ => .error index
  | some value :: rest => do
    let rest ← values (index + 1) rest
    return value :: rest

end Block

/-! ## The machine -/

/-- **A call that has not ended.** -/
structure Frame where
  /-- The routine that was called. -/
  routine : Routine
  /-- The position of the next instruction in its code. -/
  position : Nat
  /-- The values of the places. -/
  slots : Store Slot
  /-- The arguments set aside for the next call. -/
  arguments : Block
  /-- What the last callee handed back. -/
  received : Option Value
  /-- What this call will hand back. -/
  result : Option Value

namespace Frame

/-- The frame of a call. -/
def enter (routine : Routine) (args : List Value) : Frame where
  routine := routine
  position := 0
  slots := (Primer.Frame.enter routine args).slots
  arguments := []
  received := none
  result := none

/-- The name of the routine. -/
def name (f : Frame) : Ident := f.routine.name

/-- The frame with a place set. -/
def set (f : Frame) (slot : Slot) (value : Value) : Frame :=
  { f with slots := f.slots.set slot value }

/-- The value of a place. -/
def get (f : Frame) (slot : Slot) : Attempt Value :=
  orEnd (f.slots.get? slot) (.failed (.unset slot f.name))

/-- The integer in a place. -/
def getInt (f : Frame) (slot : Slot) : Attempt Int64 := do
  match ← f.get slot with
  | .int n => return n
  | found => .error (.failed (.confused slot .int found))

/-- The text in a place. -/
def getStr (f : Frame) (slot : Slot) : Attempt String := do
  match ← f.get slot with
  | .str s => return s
  | found => .error (.failed (.confused slot .str found))

/-- The frame at a label. -/
def goTo (f : Frame) (label : Label) : Attempt Frame := do
  let position ← orEnd (Code.position? label f.routine.code)
    (.failed (.unknownLabel label f.name))
  return { f with position := position }

end Frame

/-- **Executes an instruction** that leaves the callers alone, as
`Instr.execute` does. -/
def execute (symbols : SymbolTable) (f : Frame) (s : Session) :
    Instr → Attempt (Frame × Session)
  | .label _ | .enter | .nop | .leave | .call _ => return (f, s)
  | .move dst src => do
    let value ← f.get src
    return (f.set dst value, s)
  | .set dst value => return (f.set dst (.int value), s)
  | .arith op dst lhs rhs => do
    let a ← f.getInt lhs
    let b ← f.getInt rhs
    let value ← compute op a b f.name
    return (f.set dst (.int value), s)
  | .jump target => do
    let f ← f.goTo target
    return (f, s)
  | .branchCompare op lhs rhs ifTrue ifFalse => do
    let a ← f.get lhs
    let b ← f.get rhs
    let holds ← orEnd (op.compare? a b) (.failed (.incomparable a b))
    let f ← f.goTo (if holds then ifTrue else ifFalse)
    return (f, s)
  | .branchZero test src ifTrue ifFalse => do
    let n ← f.getInt src
    let f ← f.goTo (if test.passes n then ifTrue else ifFalse)
    return (f, s)
  | .setArgument index src => do
    let value ← f.get src
    let arguments ← f.arguments.setAside index.toNat value
    return ({ f with arguments := arguments }, s)
  | .fetchResult dst => do
    let value ← orEnd f.received (.failed (.noResult f.name))
    return ({ f with received := none }.set dst value, s)
  | .setResult src => do
    let value ← f.get src
    return ({ f with result := some value }, s)
  | .loadString dst constant => do
    let text ← orEnd (symbols.constant? constant)
      (.failed (.unknownString constant))
    return (f.set dst (.str text), s)
  | .printInt src => do
    let n ← f.getInt src
    return (f, s.write (Text.Decimal.ofInt64 n))
  | .printString src => do
    let text ← f.getStr src
    return (f, s.write text)
  | .readInt dst =>
    match s.input with
    | [] => .error (.failed .inputExhausted)
    | n :: rest => return (f.set dst (.int n), { s with input := rest })
  | .intToStr dst src => do
    let n ← f.getInt src
    return (f.set dst (.str (Text.Decimal.ofInt64 n)), s)
  | .strToInt dst src => do
    let text ← f.getStr src
    let n ← orEnd (toInteger? text) (.failed (.conversion text))
    return (f.set dst (.int n), s)

/-- **A state of the machine.** -/
structure Machine where
  /-- The call that is being executed. -/
  frame : Frame
  /-- The calls that wait for it, the latest first. -/
  callers : List Frame
  /-- What lasts beyond the run. -/
  session : Session

/-- **What comes after a state.** -/
inductive Transition where
  /-- Another state. -/
  | next (machine : Machine)
  /-- The end of the run. -/
  | halt (outcome : Outcome) (session : Session)

namespace Machine

/-- Starts a call. -/
def enter (routine : Routine) (args : List Value) (callers : List Frame)
    (session : Session) : Transition :=
  let session := session.record (.call routine.name args)
  if args.length < routine.prototype.params.length then
    .halt (.failed (.missingArgument args.length routine.name)) session
  else .next ⟨.enter routine args, callers, session⟩

/-- Ends a call. -/
def leave (frame : Frame) (callers : List Frame) (session : Session) :
    Transition :=
  match callers with
  | [] => .halt .finished session
  | caller :: callers =>
    .next ⟨{ caller with received := frame.result }, callers, session⟩

/-- Calls a routine by name with the arguments set aside. -/
def call (a : Assembly) (callee : Ident) (frame : Frame)
    (callers : List Frame) (session : Session) : Transition :=
  match a.routine? callee with
  | none => .halt (.failed (.unknownRoutine callee)) session
  | some routine =>
    match frame.arguments.values 0 with
    | .error index =>
      .halt (.failed (.missingArgument index routine.name)) session
    | .ok args =>
      enter routine args ({ frame with arguments := [] } :: callers) session

/-- Executes the instruction of a step that has been counted. -/
def perform (a : Assembly) (instr : Instr) (frame : Frame)
    (callers : List Frame) (session : Session) : Transition :=
  match instr with
  | .leave => leave frame callers session
  | .call callee => call a callee frame callers session
  | instr =>
    match execute a.symbols frame session instr with
    | .ok (frame, session) => .next ⟨frame, callers, session⟩
    | .error outcome => .halt outcome session

/-- **One step.** The position goes on and the step is counted before anything
else is done. -/
def step (a : Assembly) (limit : Option Nat) (m : Machine) : Transition :=
  match m.frame.routine.code[m.frame.position]? with
  | none => leave m.frame m.callers m.session
  | some instr =>
    match sum m.frame.position 1, sum m.session.steps 1 with
    | .error outcome, _ | _, .error outcome => .halt outcome m.session
    | .ok position, .ok steps =>
      let session := { m.session with steps := steps }
      match Primer.Machine.exceeded? limit steps with
      | some limit => .halt (.failed (.stepLimit limit)) session
      | none =>
        perform a instr { m.frame with position := position } m.callers
          (session.record (.step m.frame.name instr))

end Machine

/-- Follows a run over at most `horizon` more transitions. -/
def Transition.follow (a : Assembly) (limit : Option Nat) :
    Nat → Transition → Option (Outcome × Session)
  | _, .halt outcome session => some (outcome, session)
  | 0, .next _ => none
  | horizon + 1, .next m => follow a limit horizon (m.step a limit)

end Concrete

/-- **Runs a program** on the concrete machine. -/
def Assembly.runConcrete (a : Assembly) (limit : Option Nat) (horizon : Nat)
    (session : Session) : Option (Concrete.Outcome × Session) :=
  (Concrete.Machine.enter a.main [] [] session).follow a limit horizon

end Primer
