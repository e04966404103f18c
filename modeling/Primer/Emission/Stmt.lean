import Primer.Emission.Expr
import Primer.Stmt

/-!
# Code for statements

A statement takes its labels before it emits its parts, so the labels of a
choice or a loop have smaller numbers than anything inside it. A return
stores its value, sets it as the result and goes to the end of the body.

What is printed is written at once, argument by argument: if evaluating the
second argument fails, the first one has already been written.
-/

namespace Primer

namespace Site

variable (site : Site)

/-- The code that writes a text. -/
def printConstant (text : Label) : Emit Code := do
  let temp ← site.temporary .str
  return [.loadString temp text, .printString temp]

/-- The code that sets the result and goes to the end of the body. -/
def emitReturn (result : Slot) : Code :=
  [.setResult result, .jump site.exit]

/-- The code that evaluates an argument and writes its value. The none value
is written as a text, and evaluated all the same. -/
def printArg (arg : Expr Judged) : Emit Code :=
  match arg.ty with
  | .int => do
    let temp ← site.temporary .int
    let code ← arg.emitValue site temp
    return code ++ [.printInt temp]
  | .str => do
    let temp ← site.temporary .str
    let code ← arg.emitValue site temp
    return code ++ [.printString temp]
  | .bool => do
    let temp ← site.temporary .str
    let code ← site.selectText temp (arg.emitCondition site)
    return code ++ [.printString temp]
  | .unit => do
    let unused ← site.temporary .unit
    let code ← arg.emitValue site unused
    let print ← site.printConstant site.constants.unit
    return code ++ print

/-- The code that writes arguments, each after a blank. -/
def printMore : List (Expr Judged) → Emit Code
  | [] => return []
  | arg :: args => do
    let space ← site.printConstant site.constants.space
    let code ← site.printArg arg
    let rest ← printMore args
    return space ++ code ++ rest

/-- The code that writes arguments with a blank between two of them. -/
def printArgs : List (Expr Judged) → Emit Code
  | [] => return []
  | arg :: args => do
    let code ← site.printArg arg
    let rest ← site.printMore args
    return code ++ rest

end Site

namespace Stmt

mutual

/-- **The code for a statement.** -/
def emit (site : Site) : Stmt Judged → Emit Code
  | introduce _ name _ init => init.emitValue site name
  | assign _ name value => value.emitValue site name
  | update _ op name operand => do
    let current ← site.temporary .int
    let temp ← site.temporary operand.ty
    let code ← operand.emitValue site temp
    return [.move current name] ++ code
      ++ [.arith op.op name current temp]
  | pass _ => return [.nop]
  | print _ args => do
    let code ← site.printArgs args
    let newline ← site.printConstant site.constants.newline
    return code ++ newline
  | ret _ value => do
    let temp ← site.temporary value.ty
    let code ← value.emitValue site temp
    return code ++ site.emitReturn temp
  | retUnit _ => do
    let temp ← site.temporary .unit
    return .set temp 0 :: site.emitReturn temp
  | call _ callee args => Expr.emitCall site callee args
  | ifElse _ cond thenBlock elseBlock => do
    let thenLabel ← site.label "then"
    let elseLabel ← site.label "else"
    let done ← site.label "endif"
    let condCode ← cond.emitCondition site thenLabel elseLabel
    let thenCode ← emitAll site thenBlock.stmts
    let elseCode ← emitAll site elseBlock.stmts
    return condCode ++ [.label thenLabel] ++ thenCode
      ++ [.jump done, .label elseLabel] ++ elseCode ++ [.label done]
  | whileLoop _ cond body => do
    let again ← site.label "loop"
    let start ← site.label "body"
    let done ← site.label "endwhile"
    let condCode ← cond.emitCondition site start done
    let bodyCode ← emitAll site body.stmts
    return [.label again] ++ condCode ++ [.label start] ++ bodyCode
      ++ [.jump again, .label done]

/-- The code for statements, one after the other. -/
def emitAll (site : Site) : List (Stmt Judged) → Emit Code
  | [] => return []
  | stmt :: rest => do
    let code ← emit site stmt
    let restCode ← emitAll site rest
    return code ++ restCode

end

end Stmt

end Primer
