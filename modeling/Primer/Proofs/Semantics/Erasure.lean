import Primer.Proofs.Semantics.Evaluator
import Primer.Proofs.Typing.Erasure

/-!
# Types play no part in what programs mean

The evaluator never looks at a note, so a checked tree means what the tree
without types means. In particular the tree that the checker makes means what
the tree means that was checked.
-/

namespace Primer

namespace Expr

mutual

/-- **An expression has the same value without types.** -/
theorem eval_erase (calls : Calls) (body : Ident) (env : Env)
    (e : Expr Judged) :
    e.erase.eval calls body env = e.eval calls body env := by
  match e with
  | .lit _ _ | .var _ _ => rfl
  | .binary _ (.arith _) lhs rhs | .binary _ (.compare _) lhs rhs
  | .binary _ (.logic _) lhs rhs =>
    rw [erase, eval, eval_erase calls body env lhs,
      eval_erase calls body env rhs, eval]
  | .not _ operand | .input _ operand | .convert _ _ operand =>
    rw [erase, eval, eval_erase calls body env operand, eval]
  | .call _ _ args =>
    rw [erase, eval, evalArgs_erase calls body env args, eval]

/-- Arguments have the same values without types. -/
theorem evalArgs_erase (calls : Calls) (body : Ident) (env : Env)
    (args : List (Expr Judged)) :
    evalArgs calls body env (eraseAll args)
      = evalArgs calls body env args := by
  match args with
  | [] => rfl
  | arg :: args =>
    rw [eraseAll, evalArgs, eval_erase calls body env arg,
      evalArgs_erase calls body env args, evalArgs]

end

theorem print_erase (calls : Calls) (body : Ident) (env : Env)
    (e : Expr Judged) :
    e.erase.print calls body env = e.print calls body env := by
  rw [print, eval_erase, print]

theorem printMore_erase (calls : Calls) (body : Ident) (env : Env)
    (es : List (Expr Judged)) :
    printMore calls body env (eraseAll es) = printMore calls body env es := by
  induction es with
  | nil => rfl
  | cons e es ih => rw [eraseAll, printMore, print_erase, ih, printMore]

theorem printAll_erase (calls : Calls) (body : Ident) (env : Env)
    (es : List (Expr Judged)) :
    printAll calls body env (eraseAll es) = printAll calls body env es := by
  cases es with
  | nil => rfl
  | cons e es =>
    rw [eraseAll, printAll, print_erase, printMore_erase, printAll]

end Expr

namespace Stmt

mutual

/-- **A statement does the same without types.** -/
theorem exec_erase (calls : Calls) (body : Ident) (fuel : Nat)
    (stmt : Stmt Judged) :
    stmt.erase.exec calls body fuel = stmt.exec calls body fuel := by
  funext env
  match stmt with
  | .introduce _ _ _ value | .assign _ _ value | .update _ _ _ value
  | .ret _ value => rw [erase, exec, Expr.eval_erase, exec]
  | .pass _ | .retUnit _ => rfl
  | .print _ args => rw [erase, exec, Expr.printAll_erase, exec]
  | .call _ _ args => rw [erase, exec, Expr.evalArgs_erase, exec]
  | .ifElse _ cond ⟨thenStmts, _⟩ ⟨elseStmts, _⟩ =>
    rw [erase, exec, Expr.eval_erase,
      execAll_erase calls body fuel thenStmts,
      execAll_erase calls body fuel elseStmts, exec]
  | .whileLoop _ cond ⟨stmts, _⟩ =>
    rw [erase, exec, execAll_erase calls body fuel stmts, exec]
    simp only [Expr.eval_erase]

/-- Statements do the same without types. -/
theorem execAll_erase (calls : Calls) (body : Ident) (fuel : Nat)
    (stmts : List (Stmt Judged)) :
    execAll calls body fuel (eraseAll stmts)
      = execAll calls body fuel stmts := by
  funext env
  match stmts with
  | [] => rfl
  | stmt :: stmts =>
    rw [eraseAll, execAll, exec_erase calls body fuel stmt,
      execAll_erase calls body fuel stmts, execAll]

end

end Stmt

/-- A definition does the same without types. -/
theorem Definition.exec_erase (calls : Calls) (fuel : Nat)
    (d : Definition Judged) :
    d.erase.exec calls fuel = d.exec calls fuel := by
  funext args
  have hbody : Stmt.execAll calls d.name fuel d.erase.body.stmts
      = Stmt.execAll calls d.name fuel d.body.stmts :=
    Stmt.execAll_erase calls d.name fuel d.body.stmts
  unfold exec
  rw [show d.erase.name = d.name from rfl, hbody]
  rfl

namespace Program

/-- Calls have the same values without types. -/
theorem call_erase (p : Program Judged) (fuel : Nat) :
    p.erase.call fuel = p.call fuel := by
  induction fuel with
  | zero => rfl
  | succ fuel ih =>
    funext callee args
    have hfind : p.erase.definitions.find? (·.name == callee)
        = (p.definitions.find? (·.name == callee)).map Definition.erase :=
      List.find?_map
    unfold call
    rw [hfind, ih]
    cases p.definitions.find? (·.name == callee) with
    | none => rfl
    | some d => exact congrFun (d.exec_erase (p.call fuel) fuel) args

/-- **A program does the same without types.** -/
theorem exec_erase (p : Program Judged) (fuel : Nat) :
    p.erase.exec fuel = p.exec fuel := by
  have hmain : Stmt.execAll (p.call fuel) entryPoint fuel p.erase.main.stmts
      = Stmt.execAll (p.call fuel) entryPoint fuel p.main.stmts :=
    Stmt.execAll_erase (p.call fuel) entryPoint fuel p.main.stmts
  unfold exec
  rw [call_erase, hmain]

end Program

end Primer
