import Primer.Returns
import Primer.Typing.Expr

/-!
# Checking statements

Statements are checked in the order of the text. Each may add a variable to
the scope of its body, and each has a summary of how control leaves it.

All blocks of a body share one scope. A variable that is introduced in one
branch of a choice, or in a loop, is visible in everything that comes after
it in the text, whether or not it has a value there when the program runs.
-/

namespace Primer

/-- **What checking a piece of code gives.** -/
structure Checked (σ : Type) where
  /-- The code with types noted. -/
  code : σ
  /-- How control leaves it. -/
  returns : Returns
  /-- The scope after it. -/
  scope : Scope

namespace Stmt

/-- The type that a return has to have: that of the definition, and none in
the main script, which must not return. -/
abbrev Expected := Option Ty

/-- Adds a variable, if its name is new in the body. -/
def bind (scope : Scope) (name : Ident) (ty : Ty) (span : Span) :
    Check Scope :=
  match scope.declare (.introduced name ty) with
  | .ok scope => .ok scope
  | .error _ => refuse (.redeclared name) span

/-- Checks a condition. -/
def checkCondition (sigs : Signatures) (scope : Scope)
    (construct : Construct) (cond : Expr Span) : Check (Expr Judged) := do
  let cond ← cond.check sigs scope
  require (cond.ty = .bool)
    (.nonBooleanCondition construct cond.ty) cond.span
  return cond

mutual

/-- **Checks a statement.** -/
def check (sigs : Signatures) (expected : Expected) (scope : Scope) :
    Stmt Span → Check (Checked (Stmt Judged))
  | introduce span name ty init => do
    let init ← init.check sigs scope
    init.expectValue ty
    let scope ← bind scope name ty span
    return ⟨introduce span name ty init, .never, scope⟩
  | assign span name value => do
    let target ← scope.typeOf name span
    let value ← value.check sigs scope
    value.expectValue target
    return ⟨assign span name value, .never, scope⟩
  | update span op name operand => do
    let target ← scope.typeOf name span
    require (target = .int) (.unaryOperand (.update op) .int target) span
    let operand ← operand.check sigs scope
    operand.expectValue target
    return ⟨update span op name operand, .never, scope⟩
  | pass span => return ⟨pass span, .never, scope⟩
  | print span args => do
    let args ← Expr.checkAll sigs scope args
    return ⟨print span args, .never, scope⟩
  | ret span value =>
    match expected with
    | none => refuse .unexpectedReturn span
    | some ty => do
      let value ← value.check sigs scope
      require (value.ty = ty) (.returnTypeMismatch ty value.ty) value.span
      return ⟨ret span value, .always ty, scope⟩
  | retUnit span =>
    match expected with
    | none => refuse .unexpectedReturn span
    | some ty => do
      require (ty = .unit) (.returnTypeMismatch ty .unit) span
      return ⟨retUnit span, .always .unit, scope⟩
  | call span callee args => do
    let sig ← sigs.forCall callee args.length span
    let args ← Expr.checkArgs sigs scope callee 0 sig.params args
    require (sig.ret = .unit) (.notAProcedure callee sig.ret) span
    return ⟨call span callee args, .never, scope⟩
  | ifElse span cond thenBlock elseBlock => do
    let cond ← checkCondition sigs scope .ifElse cond
    let one ← checkAll sigs expected scope .never thenBlock.stmts
    let other ← checkAll sigs expected one.scope .never elseBlock.stmts
    let returns ← one.returns.merge other.returns span
    return ⟨ifElse span cond ⟨one.code, thenBlock.span⟩
      ⟨other.code, elseBlock.span⟩, returns, other.scope⟩
  | whileLoop span cond body => do
    let cond ← checkCondition sigs scope .whileLoop cond
    let checked ← checkAll sigs expected scope .never body.stmts
    return ⟨whileLoop span cond ⟨checked.code, body.span⟩,
      checked.returns.demote, checked.scope⟩

/-- Checks statements that come after code with the given summary. -/
def checkAll (sigs : Signatures) (expected : Expected) (scope : Scope)
    (before : Returns) :
    List (Stmt Span) → Check (Checked (List (Stmt Judged)))
  | [] => return ⟨[], before, scope⟩
  | stmt :: rest => do
    let first ← check sigs expected scope stmt
    let returns ← before.sequence first.returns stmt.span
    let rest ← checkAll sigs expected first.scope returns rest
    return ⟨first.code :: rest.code, rest.returns, rest.scope⟩

end

end Stmt

/-- **Checks a block.** -/
def Block.check (sigs : Signatures) (expected : Stmt.Expected)
    (scope : Scope) (block : Block (Stmt Span)) :
    Check (Checked (Block (Stmt Judged))) := do
  let checked ← Stmt.checkAll sigs expected scope .never block.stmts
  return ⟨⟨checked.code, block.span⟩, checked.returns, checked.scope⟩

end Primer
