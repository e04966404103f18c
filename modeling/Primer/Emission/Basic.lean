import Primer.Assembly

/-!
# Emitting code

Code is emitted piece by piece, and the symbol table is what the pieces
share: it hands out temporaries, labels and names of texts. So a piece is
emitted by a function from tables that gives the code and the table after it,
and pieces are put together in the order in which they are emitted, which
need not be the order in which they stand in the code. Which number a name
gets depends on the former.

The code for an expression is told what to do with the value: to *store* it
at a place, or, if it is a truth value, to *branch* on it without having it
anywhere. Both are one argument, a `Destination`. An expression can do one of
the two by itself, and `byStoring` and `byBranching` give it the other.
-/

namespace Primer

/-- **Code being emitted**, over the symbol table it takes its names from. -/
abbrev Emit := StateM SymbolTable

/-- The names of the texts that any code may print. -/
structure Constants where
  /-- The end of a line. -/
  newline : Label
  /-- What stands between two printed values. -/
  space : Label
  /-- The truth value that holds. -/
  yes : Label
  /-- The truth value that does not hold. -/
  no : Label
  /-- The none value. -/
  unit : Label
  deriving DecidableEq

/-- **The body that code is emitted for.** -/
structure Site where
  /-- The scope of the body. -/
  scope : ScopeId
  /-- Where every return goes. -/
  exit : Label
  /-- The texts that may be printed. -/
  constants : Constants
  deriving DecidableEq

/-- **What code does with the value of an expression.** -/
inductive Destination where
  /-- It stores the value. -/
  | store (dst : Slot)
  /-- It goes to the one label if the value holds, to the other if not. -/
  | branch (ifTrue ifFalse : Label)
  deriving DecidableEq

namespace Emit

/-- The name of a text. -/
def constant (text : String) : Emit Label := modifyGet (·.intern text)

/-- The names of the texts that any code may print. -/
def constants : Emit Constants := do
  let newline ← constant "\n"
  let space ← constant " "
  let yes ← constant "True"
  let no ← constant "False"
  let unit ← constant "None"
  return ⟨newline, space, yes, no, unit⟩

end Emit

namespace Site

variable (site : Site)

/-- A new temporary of the body. -/
def temporary (ty : Ty) : Emit Slot :=
  modifyGet (·.freshTemporary site.scope ty)

/-- A new label of the body. -/
def label (hint : String) : Emit Label :=
  modifyGet (·.freshLabel site.scope (some hint))

/-- One of two instructions, by a condition. -/
def select (onTrue onFalse : Instr) (condition : Label → Label → Emit Code) :
    Emit Code := do
  let yes ← site.label "true"
  let no ← site.label "false"
  let join ← site.label "join"
  let code ← condition yes no
  return code ++
    [.label yes, onTrue, .jump join, .label no, onFalse, .label join]

/-- One of the two texts of a truth value, by a condition. -/
def selectText (dst : Slot) (condition : Label → Label → Emit Code) :
    Emit Code :=
  site.select (.loadString dst site.constants.yes)
    (.loadString dst site.constants.no) condition

/-- **Reaches any destination by storing.** To branch on the value, it is
stored in a temporary first. -/
def byStoring (ty : Ty) (value : Slot → Emit Code) : Destination → Emit Code
  | .store dst => value dst
  | .branch ifTrue ifFalse => do
    let temp ← site.temporary ty
    let code ← value temp
    return code ++ [.branchZero .zero temp ifFalse ifTrue]

/-- **Reaches any destination by branching.** To store the value, one of two
branches stores 1 and the other 0. -/
def byBranching (condition : Label → Label → Emit Code) :
    Destination → Emit Code
  | .branch ifTrue ifFalse => condition ifTrue ifFalse
  | .store dst => do
    let flag ← site.temporary .bool
    let code ← site.select (.set flag 1) (.set flag 0) condition
    return code ++ [.move dst flag]

end Site

/-- The instructions that set aside arguments, from this index on. -/
def setArguments (index : UInt64) : List Slot → Code
  | [] => []
  | src :: rest => .setArgument index src :: setArguments (index + 1) rest

end Primer
