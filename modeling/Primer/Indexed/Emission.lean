import Primer.Emission.Program
import Primer.Indexed.Typing

/-!
# Emitting code over an indexed table

Code is emitted instruction by instruction, at the end of the code so far, and
names are taken from an indexed table (`Draft`). An error is raised where it is
found, with whatever has been emitted by then, which is lost.

There are two functions on expressions, one to store a value and one to branch
on it. Each falls back on the other for what it has no code of its own for:
comparisons, connectives and negations are *conditions*, and all that is no
condition is stored before it is branched on. Whether an operator is
arithmetic is found out when its code is emitted, and an operator that should
not come up there is an error.

That this emits what `TypedProgram.emit` emits, and fails where that fails, is
shown in `Proofs/Indexed/Emission`.
-/

namespace Primer

/-! ## Errors -/

/-- **Why emission fails.** -/
inductive LoweringError where
  /-- The table has no scope for a body. -/
  | missingScope (owner : Ident)
  /-- The table has the name of a body for something else. -/
  | duplicateEntry (label : Label)
  /-- There is no code for an operation on a value of this type. -/
  | unexpectedType (operation : String) (ty : Ty) (span : Span)
  deriving DecidableEq

/-- What a reader is told about an error of emission. -/
def LoweringError.diagnostic : LoweringError → Diagnostic
  | missingScope owner =>
    { message := "No scope was recorded for '" ++ owner ++ "'"
      help :=
        some "the program has to be type checked before it is lowered"
      remarks := [] }
  | duplicateEntry label =>
    { message := "The entry label '" ++ label ++ "' is already taken"
      help := none
      remarks := [] }
  | unexpectedType operation ty span =>
    { message := "Cannot lower " ++ operation ++ " on a value of type "
        ++ ty.name
      help := none
      remarks := [⟨"this expression", span⟩] }

/-! ## Drafts -/

/-- **A body that code is being emitted for.** -/
structure Draft where
  /-- The table that names are taken from. -/
  symbols : IndexedTable
  /-- The code so far. -/
  code : Array Instr

/-- **Emission that may fail**, or break off in an operation on the table. -/
abbrev Lowering := ExceptT LoweringError Attempt

/-- **Emission at the end of a draft.** -/
abbrev Drafting := StateT Draft Lowering

namespace Drafting

/-- Adds an instruction. -/
def write (instr : Instr) : Drafting Unit :=
  modify fun d => { d with code := d.code.push instr }

/-- Takes a name from the table. -/
def take (name : IndexedTable → Attempt (String × IndexedTable)) :
    Drafting String := do
  let d ← get
  let (name, symbols) ← name d.symbols
  set { d with symbols }
  return name

end Drafting

open Drafting

namespace Site

variable (site : Site)

/-- A new temporary of the body. -/
def newTemporary (ty : Ty) : Drafting Slot :=
  take (·.freshTemporary site.scope ty)

/-- A new label of the body. -/
def newLabel (hint : String) : Drafting Label :=
  take (·.freshLabel site.scope (some hint))

/-- Emits a condition that goes to one of two instructions, which meet again
afterwards. -/
def branchJoin (condition : Label → Label → Drafting Unit)
    (onTrue onFalse : Instr) : Drafting Unit := do
  let yes ← site.newLabel "true"
  let no ← site.newLabel "false"
  let join ← site.newLabel "join"
  condition yes no
  write (.label yes)
  write onTrue
  write (.jump join)
  write (.label no)
  write onFalse
  write (.label join)

/-- Emits a condition and stores 1 or 0 in a new temporary. -/
def materialize (condition : Label → Label → Drafting Unit) :
    Drafting Slot := do
  let flag ← site.newTemporary .bool
  site.branchJoin condition (.set flag 1) (.set flag 0)
  return flag

/-- Emits a condition and stores the text of its truth value. -/
def selectString (condition : Label → Label → Drafting Unit) (dst : Slot) :
    Drafting Unit :=
  site.branchJoin condition (.loadString dst site.constants.yes)
    (.loadString dst site.constants.no)

end Site

/-! ## Expressions -/

/-- The arithmetic that an operator stands for. -/
def BinOp.arithmetic? : BinOp → Option ArithOp
  | arith op => some op
  | compare _ | logic _ => none

namespace Expr

/-- **Whether an expression only has code to branch on it.** -/
def isCondition : Expr Judged → Bool
  | not _ _ => true
  | binary _ op _ _ => op.arithmetic?.isNone
  | lit _ _ | var _ _ | input _ _ | convert _ _ _ | call _ _ _ => false

/-- Emits the instructions that set aside arguments, from this index on. -/
def passArguments (index : UInt64) : List Slot → Drafting Unit
  | [] => return
  | src :: rest => do
    write (.setArgument index src)
    passArguments (index + 1) rest

mutual

/-- **Emits code that stores the value of an expression.** -/
def lowerValue (site : Site) (e : Expr Judged) (dst : Slot) : Drafting Unit :=
  if _ : e.isCondition then do
    let flag ← site.materialize fun ifTrue ifFalse =>
      lowerCondition site e ifTrue ifFalse
    write (.move dst flag)
  else
    match e with
    | lit _ (.int n) => write (.set dst n)
    | lit _ (.bool b) => write (.set dst (if b then 1 else 0))
    | lit _ .unit => write (.set dst 0)
    | lit _ (.str s) => do
      let text ← take (·.intern s)
      write (.loadString dst text)
    | var _ name => write (.move dst name)
    | binary note op lhs rhs =>
      match op.arithmetic? with
      | none => throw (.unexpectedType "arithmetic" note.ty note.span)
      | some op => do
        let left ← site.newTemporary lhs.ty
        lowerValue site lhs left
        let right ← site.newTemporary rhs.ty
        lowerValue site rhs right
        write (.arith op dst left right)
    | not note _ => throw (.unexpectedType "not" note.ty note.span)
    | input _ prompt => do
      let temp ← site.newTemporary .str
      lowerValue site prompt temp
      write (.printString temp)
      write (.readInt dst)
    | convert note .toInt operand =>
      match operand.ty with
      | .int | .bool => lowerValue site operand dst
      | .str => do
        let temp ← site.newTemporary .str
        lowerValue site operand temp
        write (.strToInt dst temp)
      | .unit => throw (.unexpectedType "int()" .unit note.span)
    | convert note .toStr operand =>
      match operand.ty with
      | .str => lowerValue site operand dst
      | .int => do
        let temp ← site.newTemporary .int
        lowerValue site operand temp
        write (.intToStr dst temp)
      | .bool => site.selectString (fun ifTrue ifFalse =>
          lowerCondition site operand ifTrue ifFalse) dst
      | .unit => throw (.unexpectedType "str()" .unit note.span)
    | call _ callee args => do
      let temps ← lowerArgs site args
      passArguments 0 temps
      write (.call callee)
      write (.fetchResult dst)
termination_by (sizeOf e, if e.isCondition then 2 else 0)
decreasing_by
  -- a condition is stored by branching on it, and on nothing smaller
  · exact .right _ (by simp [*])
  all_goals decreasing_tactic

/-- **Emits code that branches on the value of an expression.** -/
def lowerCondition (site : Site) (e : Expr Judged)
    (ifTrue ifFalse : Label) : Drafting Unit :=
  match _ : e with
  | lit _ (.bool b) => write (.jump (if b then ifTrue else ifFalse))
  | var _ name => write (.branchZero .nonZero name ifTrue ifFalse)
  | not _ operand => lowerCondition site operand ifFalse ifTrue
  | binary _ (.logic .and) lhs rhs => do
    let next ← site.newLabel "and"
    lowerCondition site lhs next ifFalse
    write (.label next)
    lowerCondition site rhs ifTrue ifFalse
  | binary _ (.logic .or) lhs rhs => do
    let next ← site.newLabel "or"
    lowerCondition site lhs ifTrue next
    write (.label next)
    lowerCondition site rhs ifTrue ifFalse
  | binary _ (.compare op) lhs rhs => do
    let left ← site.newTemporary lhs.ty
    lowerValue site lhs left
    let right ← site.newTemporary rhs.ty
    lowerValue site rhs right
    write (.branchCompare op left right ifTrue ifFalse)
  | lit _ (.int _) | lit _ (.str _) | lit _ .unit | binary _ (.arith _) _ _
  | input _ _ | convert _ _ _ | call _ _ _ => do
    let temp ← site.newTemporary e.ty
    lowerValue site e temp
    write (.branchZero .zero temp ifFalse ifTrue)
termination_by (sizeOf e, 1)
decreasing_by
  any_goals decreasing_tactic
  -- what is left is no condition, and is stored to be branched on
  all_goals
    subst_vars
    exact .right _ (by simp [isCondition, BinOp.arithmetic?])

/-- Emits code that computes arguments, each into a temporary of its own. -/
def lowerArgs (site : Site) : List (Expr Judged) → Drafting (List Slot)
  | [] => return []
  | arg :: args => do
    let temp ← site.newTemporary arg.ty
    lowerValue site arg temp
    let temps ← lowerArgs site args
    return temp :: temps
termination_by args => (sizeOf args, 0)

end

/-- Emits a call, up to its result. -/
def lowerCall (site : Site) (callee : Ident) (args : List (Expr Judged)) :
    Drafting Unit := do
  let temps ← lowerArgs site args
  passArguments 0 temps
  write (.call callee)

end Expr

/-! ## Statements -/

namespace Site

variable (site : Site)

/-- Emits code that writes a text. -/
def lowerConstant (text : Label) : Drafting Unit := do
  let temp ← site.newTemporary .str
  write (.loadString temp text)
  write (.printString temp)

/-- Emits code that sets the result and goes to the end of the body. -/
def lowerReturn (result : Slot) : Drafting Unit := do
  write (.setResult result)
  write (.jump site.exit)

/-- Emits code that evaluates an argument and writes its value. -/
def lowerPrint (arg : Expr Judged) : Drafting Unit :=
  match arg.ty with
  | .int => do
    let temp ← site.newTemporary .int
    arg.lowerValue site temp
    write (.printInt temp)
  | .str => do
    let temp ← site.newTemporary .str
    arg.lowerValue site temp
    write (.printString temp)
  | .bool => do
    let temp ← site.newTemporary .str
    site.selectString (arg.lowerCondition site) temp
    write (.printString temp)
  | .unit => do
    let unused ← site.newTemporary .unit
    arg.lowerValue site unused
    site.lowerConstant site.constants.unit

/-- Emits code that writes arguments, the first of which has this index. -/
def lowerPrints (index : Nat) : List (Expr Judged) → Drafting Unit
  | [] => return
  | arg :: args => do
    if index > 0 then site.lowerConstant site.constants.space
    site.lowerPrint arg
    lowerPrints (index + 1) args

end Site

namespace Stmt

mutual

/-- **Emits the code for a statement.** -/
def lower (site : Site) : Stmt Judged → Drafting Unit
  | introduce _ name _ init => init.lowerValue site name
  | assign _ name value => value.lowerValue site name
  | update _ op name operand => do
    let current ← site.newTemporary .int
    write (.move current name)
    let temp ← site.newTemporary operand.ty
    operand.lowerValue site temp
    write (.arith op.op name current temp)
  | pass _ => write .nop
  | print _ args => do
    site.lowerPrints 0 args
    site.lowerConstant site.constants.newline
  | ret _ value => do
    let temp ← site.newTemporary value.ty
    value.lowerValue site temp
    site.lowerReturn temp
  | retUnit _ => do
    let temp ← site.newTemporary .unit
    write (.set temp 0)
    site.lowerReturn temp
  | call _ callee args => Expr.lowerCall site callee args
  | ifElse _ cond thenBlock elseBlock => do
    let thenLabel ← site.newLabel "then"
    let elseLabel ← site.newLabel "else"
    let done ← site.newLabel "endif"
    cond.lowerCondition site thenLabel elseLabel
    write (.label thenLabel)
    lowerAll site thenBlock.stmts
    write (.jump done)
    write (.label elseLabel)
    lowerAll site elseBlock.stmts
    write (.label done)
  | whileLoop _ cond body => do
    let again ← site.newLabel "loop"
    let start ← site.newLabel "body"
    let done ← site.newLabel "endwhile"
    write (.label again)
    cond.lowerCondition site start done
    write (.label start)
    lowerAll site body.stmts
    write (.jump again)
    write (.label done)

/-- Emits the code for statements, one after the other. -/
def lowerAll (site : Site) : List (Stmt Judged) → Drafting Unit
  | [] => return
  | stmt :: rest => do
    lower site stmt
    lowerAll site rest

end

end Stmt

/-- Emits the code of a body between its two labels. -/
def Site.lowerCode (site : Site) (entry : Label)
    (body : Block (Stmt Judged)) : Drafting Unit := do
  write (.label entry)
  write .enter
  Stmt.lowerAll site body.stmts
  write (.label site.exit)
  write .leave

/-! ## Programs -/

/-- **An assembled program** over an indexed table. -/
structure IndexedAssembly where
  /-- The routines that can be called. -/
  routines : List Routine
  /-- The routine that a run starts with. -/
  main : Routine
  /-- The symbols of all code. -/
  symbols : IndexedTable

/-- Emission of routines, one after the other. -/
abbrev Assembling := StateT IndexedTable Lowering

namespace Assembling

/-- An operation on the table. -/
def perform {α : Type}
    (operation : IndexedTable → Attempt (α × IndexedTable)) :
    Assembling α := do
  let (a, t) ← operation (← get)
  set t
  return a

/-- The names of the texts that any code may print. -/
def constants : Assembling Constants := do
  let newline ← perform (·.intern "\n")
  let space ← perform (·.intern " ")
  let yes ← perform (·.intern "True")
  let no ← perform (·.intern "False")
  let unit ← perform (·.intern "None")
  return ⟨newline, space, yes, no, unit⟩

/-- The scope that was opened for a body. -/
def scopeOf (owner : Ident) : Assembling ScopeId := do
  match (← get).scopeOf? owner with
  | some scope => return scope
  | none => throw (.missingScope owner)

/-- The label where a body starts, which gets the name of the body. -/
def entryLabel (name : Ident) : Assembling Label := do
  match ← (← get).declare .global (.label name) with
  | .ok t => do
    set t
    return name
  | .error _ => throw (.duplicateEntry name)

/-- Emits the code of a body that starts with a label. -/
def lowerBody (constants : Constants) (entry : Label) (scope : ScopeId)
    (body : Block (Stmt Judged)) : Assembling Code := do
  let exit ← perform (·.freshLabel scope (some "done"))
  let ((), draft) ←
    (Site.lowerCode ⟨scope, exit, constants⟩ entry body).run ⟨← get, #[]⟩
  set draft.symbols
  return draft.code.toList

/-- **Emits the routine of a body.** -/
def lowerRoutine (constants : Constants) (name : Ident)
    (params : List (Slot × Ty)) (ret : Ty) (body : Block (Stmt Judged)) :
    Assembling Routine := do
  let scope ← scopeOf name
  let entry ← entryLabel name
  let code ← lowerBody constants entry scope body
  return ⟨⟨name, params, ret, scope⟩, code⟩

/-- Emits the routines of definitions. -/
def lowerDefinitions (constants : Constants) :
    List (Definition Judged) → Assembling (List Routine)
  | [] => return []
  | d :: rest => do
    let routine ← lowerRoutine constants d.name d.params d.ret d.body
    let routines ← lowerDefinitions constants rest
    return routine :: routines

end Assembling

open Assembling

/-- **Emits the code for a checked program.** -/
def IndexedProgram.lower (p : IndexedProgram) : Lowering IndexedAssembly := do
  let emission : Assembling (List Routine × Routine) := do
    let constants ← constants
    let routines ← lowerDefinitions constants p.program.definitions
    let main ←
      lowerRoutine constants Program.entryPoint [] .unit p.program.main
    return (routines, main)
  let ((routines, main), symbols) ← emission.run p.symbols
  return ⟨routines, main, symbols⟩

/-- **Why a program is not compiled** over an indexed table. -/
inductive IndexedError where
  /-- It does not pass the check. -/
  | typing (error : TypeError)
  /-- No code can be emitted for it. -/
  | lowering (error : LoweringError)
  deriving DecidableEq

/-- What a reader is told about the error. -/
def IndexedError.diagnostic : IndexedError → Diagnostic
  | typing error => error.diagnostic
  | lowering error => error.diagnostic

/-- **Checks a program and emits its code**, over one indexed table. -/
def Program.compileIndexed (p : Program Span) :
    Attempt (Except IndexedError IndexedAssembly) := do
  match ← p.checkIndexed.run with
  | .error error => return .error (.typing error)
  | .ok typed =>
    let emitted ← typed.lower.run
    return emitted.mapError .lowering

end Primer
