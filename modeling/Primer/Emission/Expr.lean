import Primer.Emission.Basic

/-!
# Code for expressions

Operands are evaluated from left to right, each into a temporary of its own,
before anything is done with them. For the arguments of a call this means
that all of them are computed before the first is set aside, so a call inside
an argument cannot take the arguments of the call around it.

Negation emits nothing: it exchanges the two labels. A connective emits one
label, which the first operand branches to when it leaves the matter open.
-/

namespace Primer

/-- The code for a truth value that is written out. To branch on it is to
jump. -/
def emitBool (b : Bool) : Destination → Emit Code
  | .store dst => return [.set dst (if b then 1 else 0)]
  | .branch ifTrue ifFalse => return [.jump (if b then ifTrue else ifFalse)]

/-- The code for a literal. The none value is stored as the integer 0. -/
def Literal.emit (site : Site) (ty : Ty) : Literal → Destination → Emit Code
  | int n => site.byStoring ty fun dst => return [.set dst n]
  | str s => site.byStoring ty fun dst => do
    let text ← Emit.constant s
    return [.loadString dst text]
  | bool b => emitBool b
  | unit => site.byStoring ty fun dst => return [.set dst 0]

/-- The code for a variable. -/
def emitVariable (name : Ident) : Destination → Emit Code
  | .store dst => return [.move dst name]
  | .branch ifTrue ifFalse =>
    return [.branchZero .nonZero name ifTrue ifFalse]

namespace Expr

mutual

/-- **The code for an expression** with a destination for its value. -/
def emit (site : Site) : Expr Judged → Destination → Emit Code
  | lit note value => value.emit site note.ty
  | var _ name => emitVariable name
  | binary note (.arith op) lhs rhs => site.byStoring note.ty fun dst => do
    let left ← site.temporary lhs.ty
    let leftCode ← emit site lhs (.store left)
    let right ← site.temporary rhs.ty
    let rightCode ← emit site rhs (.store right)
    return leftCode ++ rightCode ++ [.arith op dst left right]
  | binary _ (.compare op) lhs rhs => site.byBranching fun ifTrue ifFalse => do
    let left ← site.temporary lhs.ty
    let leftCode ← emit site lhs (.store left)
    let right ← site.temporary rhs.ty
    let rightCode ← emit site rhs (.store right)
    return leftCode ++ rightCode
      ++ [.branchCompare op left right ifTrue ifFalse]
  | binary _ (.logic .and) lhs rhs => site.byBranching fun ifTrue ifFalse => do
    let next ← site.label "and"
    let leftCode ← emit site lhs (.branch next ifFalse)
    let rightCode ← emit site rhs (.branch ifTrue ifFalse)
    return leftCode ++ [.label next] ++ rightCode
  | binary _ (.logic .or) lhs rhs => site.byBranching fun ifTrue ifFalse => do
    let next ← site.label "or"
    let leftCode ← emit site lhs (.branch ifTrue next)
    let rightCode ← emit site rhs (.branch ifTrue ifFalse)
    return leftCode ++ [.label next] ++ rightCode
  | not _ operand => site.byBranching fun ifTrue ifFalse =>
    emit site operand (.branch ifFalse ifTrue)
  | input note prompt => site.byStoring note.ty fun dst => do
    let temp ← site.temporary .str
    let code ← emit site prompt (.store temp)
    return code ++ [.printString temp, .readInt dst]
  | convert note target operand => site.byStoring note.ty fun dst =>
    match target, operand.ty with
    | .toInt, .str => do
      let temp ← site.temporary .str
      let code ← emit site operand (.store temp)
      return code ++ [.strToInt dst temp]
    | .toStr, .int => do
      let temp ← site.temporary .int
      let code ← emit site operand (.store temp)
      return code ++ [.intToStr dst temp]
    | .toStr, .bool => site.selectText dst fun ifTrue ifFalse =>
      emit site operand (.branch ifTrue ifFalse)
    | _, _ => emit site operand (.store dst)
  | call note callee args => site.byStoring note.ty fun dst => do
    let (code, temps) ← emitArgs site args
    return code ++ setArguments 0 temps ++ [.call callee, .fetchResult dst]

/-- The code that computes arguments, and the temporaries that then hold
them. -/
def emitArgs (site : Site) : List (Expr Judged) → Emit (Code × List Slot)
  | [] => return ([], [])
  | arg :: args => do
    let temp ← site.temporary arg.ty
    let code ← emit site arg (.store temp)
    let (rest, temps) ← emitArgs site args
    return (code ++ rest, temp :: temps)

end

/-- The code that stores the value of an expression. -/
def emitValue (site : Site) (e : Expr Judged) (dst : Slot) : Emit Code :=
  e.emit site (.store dst)

/-- The code that branches on the value of an expression. -/
def emitCondition (site : Site) (e : Expr Judged) (ifTrue ifFalse : Label) :
    Emit Code :=
  e.emit site (.branch ifTrue ifFalse)

/-- The code of a call, up to its result. -/
def emitCall (site : Site) (callee : Ident) (args : List (Expr Judged)) :
    Emit Code := do
  let (code, temps) ← emitArgs site args
  return code ++ setArguments 0 temps ++ [.call callee]

end Expr

end Primer
