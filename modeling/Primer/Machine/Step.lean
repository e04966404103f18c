import Primer.Machine.Basic

/-!
# Steps of the machine

One step counts itself, enters itself in the log and executes one
instruction. A step over the limit is counted and does nothing else.

Most instructions change the frame and the session and leave the callers
alone. The exceptions are `call`, which puts a new frame on top, and `leave`,
which takes one away. A routine whose code has come to its end without
`leave` returns just the same, only no step is counted for that.

The arguments of the next call are set aside in one block of memory, which
has a place for every index up to the greatest. An index for which no block
is large enough crashes the machine; see `argumentRoom`.

At a call, all arguments that were set aside are taken, so the next call
starts with none. They have to be numbered from 0 without a gap. There may be
more of them than the callee has parameters; the rest is ignored, but the log
shows it.
-/

namespace Primer

/-- **The result of an instruction**, or how the run ends there. -/
abbrev Execution := Except Outcome

/-- Ends the run with an error. -/
def fail {α : Type} (error : RuntimeError) : Execution α :=
  .error (.failed error)

/-- The value, or else the end of the run with an error. -/
def orFail {α : Type} (value? : Option α) (error : RuntimeError) :
    Execution α :=
  match value? with
  | some value => .ok value
  | none => fail error

/-- **How many arguments can be set aside.** The place of one takes 24 bytes,
and a block of memory has fewer than `2 ^ 63`. -/
def argumentRoom : Nat := (Nat.pow 2 63 - 1) / 24

namespace Frame

/-- The frame of a call: the parameters hold the arguments, and a later
parameter wins over an earlier one of the same name. -/
def enter (routine : Routine) (args : List Value) : Frame where
  routine := routine
  rest := routine.code
  slots := ((routine.prototype.params.map Prod.fst).zip args).foldl
    (fun slots arg => slots.set arg.1 arg.2) .empty
  arguments := .empty
  received := none
  result := none

/-- The name of the routine. -/
def name (f : Frame) : Ident := f.routine.name

/-- The frame with a place set. -/
def set (f : Frame) (slot : Slot) (value : Value) : Frame :=
  { f with slots := f.slots.set slot value }

/-- The value of a place. -/
def get (f : Frame) (slot : Slot) : Execution Value :=
  orFail (f.slots.get? slot) (.unset slot f.name)

/-- The integer in a place. -/
def getInt (f : Frame) (slot : Slot) : Execution Int64 := do
  match ← f.get slot with
  | .int n => return n
  | found => fail (.confused slot .int found)

/-- The text in a place. -/
def getStr (f : Frame) (slot : Slot) : Execution String := do
  match ← f.get slot with
  | .str s => return s
  | found => fail (.confused slot .str found)

/-- The frame at a label. -/
def goTo (f : Frame) (label : Label) : Execution Frame := do
  let rest ← orFail (Code.atLabel? label f.routine.code)
    (.unknownLabel label f.name)
  return { f with rest := rest }

/-- One more than the greatest index of an argument set aside. -/
def argumentCount (f : Frame) : Nat :=
  f.arguments.keys.foldr (fun index count => max (index + 1) count) 0

end Frame

/-- The values under `count` successive indices, or the first index that has
none. -/
def collect (arguments : Store Nat) (index : Nat) :
    Nat → Except Nat (List Value)
  | 0 => .ok []
  | count + 1 =>
    match arguments.get? index with
    | none => .error index
    | some value => do
      let values ← collect arguments (index + 1) count
      return value :: values

/-- **Executes an instruction** that leaves the callers alone. The two that do
not, `leave` and `call`, do nothing here; `Machine.perform` executes them. -/
def Instr.execute (symbols : SymbolTable) (f : Frame) (s : Session) :
    Instr → Execution (Frame × Session)
  | label _ | enter | nop | leave | call _ => return (f, s)
  | move dst src => do
    let value ← f.get src
    return (f.set dst value, s)
  | set dst value => return (f.set dst (.int value), s)
  | arith op dst lhs rhs => do
    let a ← f.getInt lhs
    let b ← f.getInt rhs
    let value ← orFail (op.compute? a b) (.divisionByZero f.name)
    return (f.set dst (.int value), s)
  | jump target => do
    let f ← f.goTo target
    return (f, s)
  | branchCompare op lhs rhs ifTrue ifFalse => do
    let a ← f.get lhs
    let b ← f.get rhs
    let holds ← orFail (op.compare? a b) (.incomparable a b)
    let f ← f.goTo (if holds then ifTrue else ifFalse)
    return (f, s)
  | branchZero test src ifTrue ifFalse => do
    let n ← f.getInt src
    let f ← f.goTo (if test.passes n then ifTrue else ifFalse)
    return (f, s)
  | setArgument index src => do
    let value ← f.get src
    if index.toNat < argumentRoom then
      return ({ f with arguments := f.arguments.set index.toNat value }, s)
    else .error .crashed
  | fetchResult dst => do
    let value ← orFail f.received (.noResult f.name)
    return ({ f with received := none }.set dst value, s)
  | setResult src => do
    let value ← f.get src
    return ({ f with result := some value }, s)
  | loadString dst constant => do
    let text ← orFail (symbols.constant? constant) (.unknownString constant)
    return (f.set dst (.str text), s)
  | printInt src => do
    let n ← f.getInt src
    return (f, s.write (Text.Decimal.ofInt64 n))
  | printString src => do
    let text ← f.getStr src
    return (f, s.write text)
  | readInt dst =>
    match s.input with
    | [] => fail .inputExhausted
    | n :: rest => return (f.set dst (.int n), { s with input := rest })
  | intToStr dst src => do
    let n ← f.getInt src
    return (f.set dst (.str (Text.Decimal.ofInt64 n)), s)
  | strToInt dst src => do
    let text ← f.getStr src
    let n ← orFail (toInteger? text) (.conversion text)
    return (f.set dst (.int n), s)

namespace Machine

/-- **Starts a call**: the call is entered in the log, and then the callee
has to have a value for each parameter. -/
def enter (routine : Routine) (args : List Value) (callers : List Frame)
    (session : Session) : Transition :=
  let session := session.record (.call routine.name args)
  if args.length < routine.prototype.params.length then
    .halt (.failed (.missingArgument args.length routine.name)) session
  else .next ⟨.enter routine args, callers, session⟩

/-- **Ends a call**: the caller receives the result, or the run is over. -/
def leave (frame : Frame) (callers : List Frame) (session : Session) :
    Transition :=
  match callers with
  | [] => .halt .finished session
  | caller :: callers =>
    .next ⟨{ caller with received := frame.result }, callers, session⟩

/-- **Calls a routine by name** with the arguments set aside. -/
def call (a : Assembly) (callee : Ident) (frame : Frame)
    (callers : List Frame) (session : Session) : Transition :=
  match a.routine? callee with
  | none => .halt (.failed (.unknownRoutine callee)) session
  | some routine =>
    match collect frame.arguments 0 frame.argumentCount with
    | .error index =>
      .halt (.failed (.missingArgument index routine.name)) session
    | .ok args =>
      enter routine args ({ frame with arguments := .empty } :: callers)
        session

/-- Executes the instruction of a step that has been counted. -/
def perform (a : Assembly) (instr : Instr) (frame : Frame)
    (callers : List Frame) (session : Session) : Transition :=
  match instr with
  | .leave => leave frame callers session
  | .call callee => call a callee frame callers session
  | instr =>
    match instr.execute a.symbols frame session with
    | .ok (frame, session) => .next ⟨frame, callers, session⟩
    | .error outcome => .halt outcome session

/-- The limit, if a number of steps exceeds it. -/
def exceeded? (limit : Option Nat) (steps : Nat) : Option Nat :=
  limit.filter (· < steps)

/-- **One step.** -/
def step (a : Assembly) (limit : Option Nat) (m : Machine) : Transition :=
  match m.frame.rest with
  | [] => leave m.frame m.callers m.session
  | instr :: rest =>
    let session := m.session.countStep
    match exceeded? limit session.steps with
    | some limit => .halt (.failed (.stepLimit limit)) session
    | none =>
      perform a instr { m.frame with rest := rest } m.callers
        (session.record (.step m.frame.name instr))

end Machine

end Primer
