import Primer.Proofs.Semantics.Evaluator

/-!
# What an expression does

The evaluator takes an expression through one world and one meaning of calls.
What an expression does can be said before either is known: it writes a text,
reads an integer or makes a call, it goes on from there in a way that depends
on the answer, and in the end it has a value or fails. That is a tree, the
`Act` of the expression.

A tree is closer to code than an evaluation is. It says in which order things
are done and how often, and a call is there by itself, with its arguments,
whatever comes of it. `Act.run` carries a tree out where calls mean something,
and then it does what the evaluator does (`Expr.run_act`).
-/

namespace Primer

/-- **What is done, up to a result.** -/
inductive Act (β : Type) where
  /-- Nothing more is done, and this is the result. -/
  | pure (b : β)
  /-- There is no result, because of an error. -/
  | fail (error : RuntimeError)
  /-- There is no sense in what is done. -/
  | stuck
  /-- A text is written. -/
  | write (text : String) (next : Act β)
  /-- An integer is read. -/
  | read (next : Int64 → Act β)
  /-- A call is made. -/
  | call (callee : Ident) (args : List Literal) (next : Literal → Act β)

namespace Act

variable {β γ : Type}

/-- **One thing after the other.** -/
def bind : Act β → (β → Act γ) → Act γ
  | pure b, k => k b
  | fail error, _ => fail error
  | stuck, _ => stuck
  | write text next, k => write text (next.bind k)
  | read next, k => read fun n => (next n).bind k
  | call callee args next, k => call callee args fun v => (next v).bind k

instance : Monad Act where
  pure := pure
  bind := bind

/-- What is done by an evaluation that leaves the world alone. -/
def ofEval (x : Eval β) : Act β :=
  match x ⟨[], ""⟩ with
  | .ok b _ => pure b
  | .error (.failed error) _ => fail error
  | .error .stuck _ | .error .outOfFuel _ => stuck

/-- **Carries out** what is to be done, where calls mean something. -/
def run (calls : Calls) : Act β → Eval β
  | pure b => return b
  | fail error => Eval.fail error
  | stuck => throw .stuck
  | write text next => do
    Eval.write text
    next.run calls
  | read next => do
    let n ← Eval.read
    (next n).run calls
  | call callee args next => do
    let v ← calls callee args
    (next v).run calls

@[simp] theorem run_bind (calls : Calls) (x : Act β) (k : β → Act γ) :
    (x >>= k).run calls = x.run calls >>= fun b => (k b).run calls := by
  show (x.bind k).run calls = _
  induction x with
  | pure | fail | stuck => rfl
  | write text next ih =>
    rw [bind, run, run, ih, bind_assoc]
  | read next ih =>
    rw [bind, run, run, bind_assoc]
    exact bind_congr ih
  | call callee args next ih =>
    rw [bind, run, run, bind_assoc]
    exact bind_congr ih

/-- Nothing is done after something else. -/
theorem bind_pure (x : Act β) : x >>= Pure.pure = x := by
  show x.bind pure = x
  induction x with
  | pure | fail | stuck => rfl
  | write text next ih => rw [bind, ih]
  | read next ih => rw [bind, funext ih]
  | call callee args next ih => rw [bind, funext ih]

@[simp] theorem run_pure (calls : Calls) (b : β) :
    (Pure.pure b : Act β).run calls = Pure.pure b := rfl

end Act

/-- **An evaluation leaves the world alone**, and does not look at it. -/
def Eval.IsWorldless {β : Type} (x : Eval β) : Prop :=
  ∀ w, x w = match x ⟨[], ""⟩ with
    | .ok b _ => .ok b w
    | .error (.failed error) _ => .error (.failed error) w
    | .error .stuck _ | .error .outOfFuel _ => .error .stuck w

/-- Carrying out what such an evaluation does is to make the evaluation. -/
theorem Eval.IsWorldless.run_ofEval {β : Type} {x : Eval β}
    (h : x.IsWorldless) (calls : Calls) : (Act.ofEval x).run calls = x := by
  funext w
  rw [h w]
  unfold Act.ofEval
  match x ⟨[], ""⟩ with
  | .ok _ _ | .error (.failed _) _ | .error .stuck _
  | .error .outOfFuel _ => rfl

section Worldless

open Eval

theorem Env.isWorldless_read (env : Env) (body name : Ident) :
    (env.read body name).IsWorldless := by
  unfold Env.read
  cases env name <;> exact fun _ => rfl

theorem Literal.isWorldless_asBool (v : Literal) :
    v.asBool.IsWorldless := by
  cases v <;> exact fun _ => rfl

theorem Literal.isWorldless_asStr (v : Literal) : v.asStr.IsWorldless := by
  cases v <;> exact fun _ => rfl

/-- An operation leaves the world alone. -/
theorem ArithOp.isWorldless_apply (op : ArithOp) (body : Ident)
    (a b : Literal) : (op.apply body a b).IsWorldless := by
  cases a with
  | str | bool | unit => exact fun _ => rfl
  | int m => cases b with
    | str | bool | unit => exact fun _ => rfl
    | int n =>
      show (if op.divides ∧ n = 0 then Eval.fail (.divisionByZero body)
        else pure (Literal.int (Int64.ofInt (op.exact m.toInt n.toInt)))
        : Eval Literal).IsWorldless
      split <;> exact fun _ => rfl

theorem Comparison.isWorldless_apply (op : Comparison) (a b : Literal) :
    (op.apply a b).IsWorldless := by
  cases a <;> cases b <;> exact fun _ => rfl

/-- A conversion leaves the world alone. -/
theorem Conversion.isWorldless_apply (target : Conversion) (v : Literal) :
    (target.apply v).IsWorldless := by
  cases v with
  | unit => exact fun _ => rfl
  | int | bool => cases target <;> exact fun _ => rfl
  | str s => cases target with
    | toStr => exact fun _ => rfl
    | toInt =>
      show (Eval.numeral s).IsWorldless
      unfold Eval.numeral
      cases toInteger? s <;> exact fun _ => rfl

end Worldless

namespace Expr

variable {α : Type}

mutual

/-- **What an expression does** in the body of this name. -/
def act (body : Ident) (env : Env) : Expr α → Act Literal
  | lit _ value => return value
  | var _ name => .ofEval (env.read body name)
  | binary _ (.arith op) lhs rhs => do
    let a ← act body env lhs
    let b ← act body env rhs
    .ofEval (op.apply body a b)
  | binary _ (.compare op) lhs rhs => do
    let a ← act body env lhs
    let b ← act body env rhs
    .ofEval (op.apply a b)
  | binary _ (.logic op) lhs rhs => do
    let a ← act body env lhs
    let first ← .ofEval a.asBool
    if op.decides first then return .bool first
    else act body env rhs
  | not _ operand => do
    let a ← act body env operand
    let holds ← .ofEval a.asBool
    return .bool (!holds)
  | input _ prompt => do
    let a ← act body env prompt
    let text ← .ofEval a.asStr
    .write text (.read fun n => return .int n)
  | convert _ target operand => do
    let a ← act body env operand
    .ofEval (target.apply a)
  | call _ callee args => do
    let values ← actArgs body env args
    .call callee values fun v => return v

/-- What arguments do, from the first to the last. -/
def actArgs (body : Ident) (env : Env) :
    List (Expr α) → Act (List Literal)
  | [] => return []
  | arg :: args => do
    let value ← act body env arg
    let values ← actArgs body env args
    return value :: values

end

variable (calls : Calls) (body : Ident) (env : Env)

mutual

/-- **Carrying out what an expression does is to evaluate it.** -/
theorem run_act (e : Expr α) :
    (e.act body env).run calls = e.eval calls body env := by
  match e with
  | lit _ value => rfl
  | var _ name => exact (env.isWorldless_read body name).run_ofEval calls
  | binary _ (.arith op) lhs rhs =>
    simp only [act, eval, Act.run_bind, run_act lhs, run_act rhs,
      (op.isWorldless_apply body _ _).run_ofEval]
  | binary _ (.compare op) lhs rhs =>
    simp only [act, eval, Act.run_bind, run_act lhs, run_act rhs,
      (op.isWorldless_apply _ _).run_ofEval]
  | binary _ (.logic op) lhs rhs =>
    simp only [act, eval, Act.run_bind, run_act lhs,
      (Literal.isWorldless_asBool _).run_ofEval]
    refine bind_congr fun a => bind_congr fun first => ?_
    split
    · rfl
    · exact run_act rhs
  | not _ operand =>
    simp only [act, eval, Act.run_bind, run_act operand,
      (Literal.isWorldless_asBool _).run_ofEval, Act.run_pure]
  | input _ prompt =>
    simp only [act, eval, Act.run_bind, run_act prompt, Act.run,
      (Literal.isWorldless_asStr _).run_ofEval, Act.run_pure]
  | convert _ target operand =>
    simp only [act, eval, Act.run_bind, run_act operand,
      (target.isWorldless_apply _).run_ofEval]
  | call _ callee args =>
    simp only [act, eval, Act.run_bind, run_actArgs args, Act.run,
      Act.run_pure, bind_pure]

/-- Carrying out what arguments do is to evaluate them. -/
theorem run_actArgs (args : List (Expr α)) :
    (actArgs body env args).run calls = evalArgs calls body env args := by
  match args with
  | [] => rfl
  | arg :: args =>
    simp only [actArgs, evalArgs, Act.run_bind, run_act arg,
      run_actArgs args, Act.run_pure]

end

end Expr

end Primer
