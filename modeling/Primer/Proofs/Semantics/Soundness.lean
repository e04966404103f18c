import Primer.Proofs.Emission.Routines
import Primer.Proofs.Semantics.Evaluator
import Primer.Proofs.Typing.Rules

/-!
# Well typed programs are never stuck

A well typed expression has a value of its type, a well typed definition
returns a value of the declared type, and neither is ever stuck. A program can
still fail, but only in the ways listed in `Program.MayFail`: by a division by
zero, a text that is no numeral, an input that has come to its end, or a
variable that the program introduces and that has no value yet.

`Eval.Safe` says that of an evaluation, with what holds of its value. What has
to be known of an environment is `Env.Fits`, and it is known for the context at
the *end* of the body. In that context every variable of the body has its
type, whether or not control has come past the place where the variable is
introduced, so going round in a loop changes nothing.
-/

namespace Primer

variable {α : Type}

/-! ## How a program may fail -/

namespace Stmt

mutual

/-- The variables that a statement introduces. -/
def introduced : Stmt α → List Ident
  | introduce _ name _ _ => [name]
  | assign _ _ _ | update _ _ _ _ | pass _ | print _ _ | ret _ _
  | retUnit _ | call _ _ _ => []
  | ifElse _ _ thenBlock elseBlock =>
    introducedAll thenBlock.stmts ++ introducedAll elseBlock.stmts
  | whileLoop _ _ body => introducedAll body.stmts

/-- The variables that statements introduce. -/
def introducedAll : List (Stmt α) → List Ident
  | [] => []
  | stmt :: stmts => introduced stmt ++ introducedAll stmts

end

end Stmt

/-- A variable that a definition introduces and that is no parameter. -/
def Definition.Introduces (d : Definition α) (name : Ident) : Prop :=
  name ∈ Stmt.introducedAll d.body.stmts ∧ name ∉ d.params.map Prod.fst

/-- **The ways in which a program may fail.** -/
def Program.MayFail (p : Program α) : RuntimeError → Prop
  | .divisionByZero _ | .conversion _ | .inputExhausted => True
  | .unset name body =>
    ∃ d ∈ p.bodies, d.name = body ∧ d.Introduces name
  | _ => False

/-! ## Evaluations that are as they should be -/

/-- **An evaluation is as it should be**: it stops only in the ways that are
allowed, and a value that it has is as it should be. -/
def Eval.Ensures {β : Type} (allowed : Stop → Prop) (x : Eval β)
    (post : β → Prop) : Prop :=
  ∀ w, match x w with
    | .ok b _ => post b
    | .error stop _ => allowed stop

namespace Eval.Ensures

variable {allowed : Stop → Prop} {β γ : Type}

theorem pure {post : β → Prop} {b : β} (h : post b) :
    Ensures allowed (Pure.pure b) post := fun _ => h

theorem stop {post : β → Prop} {stop : Stop} (h : allowed stop) :
    Ensures allowed (throw stop) post := fun _ => h

/-- What is as it should be for a stronger reason is as it should be. -/
theorem mono {post post' : β → Prop} {x : Eval β} (h : Ensures allowed x post)
    (hpost : ∀ b, post b → post' b) : Ensures allowed x post' := by
  intro w
  have hw := h w
  revert hw
  match x w with
  | .ok b _ => exact hpost b
  | .error stop _ => exact id

/-- **One evaluation after the other.** -/
theorem bind {post : β → Prop} {post' : γ → Prop} {x : Eval β}
    {k : β → Eval γ} (h : Ensures allowed x post)
    (hk : ∀ b, post b → Ensures allowed (k b) post') :
    Ensures allowed (x >>= k) post' := by
  intro w
  have hw := h w
  show match EStateM.bind x k w with
    | .ok b _ => post' b
    | .error stop _ => allowed stop
  unfold EStateM.bind
  revert hw
  match x w with
  | .ok b w' => exact fun hb => hk b hb w'
  | .error stop _ => exact id

end Eval.Ensures

/-! ## Safe evaluations -/

/-- **An evaluation is safe**: it is not stuck, it fails only as the program
may fail, and its value is as it should be. -/
def Eval.Safe {β : Type} (p : Program α) (x : Eval β) (post : β → Prop) :
    Prop :=
  ∀ w, match x w with
    | .ok b _ => post b
    | .error (.failed error) _ => p.MayFail error
    | .error .stuck _ => False
    | .error .outOfFuel _ => True

/-- The ways in which an evaluation may stop if it is safe. -/
def Program.MayStop (p : Program α) : Stop → Prop
  | .failed error => p.MayFail error
  | .stuck => False
  | .outOfFuel => True

namespace Eval

variable {p : Program α} {β γ : Type}

theorem safe_iff_ensures {x : Eval β} {post : β → Prop} :
    Safe p x post ↔ Ensures p.MayStop x post := by
  refine forall_congr' fun w => ?_
  match x w with
  | .ok _ _ | .error (.failed _) _ | .error .stuck _
  | .error .outOfFuel _ => rfl

theorem Safe.pure {post : β → Prop} {b : β} (h : post b) :
    Safe p (Pure.pure b) post := fun _ => h

theorem Safe.mono {post post' : β → Prop} {x : Eval β} (h : Safe p x post)
    (hpost : ∀ b, post b → post' b) : Safe p x post' :=
  safe_iff_ensures.mpr ((safe_iff_ensures.mp h).mono hpost)

/-- **Two safe evaluations, one after the other, are safe.** -/
theorem Safe.bind {post : β → Prop} {post' : γ → Prop} {x : Eval β}
    {k : β → Eval γ} (h : Safe p x post)
    (hk : ∀ b, post b → Safe p (k b) post') : Safe p (x >>= k) post' :=
  safe_iff_ensures.mpr ((safe_iff_ensures.mp h).bind fun b hb =>
    safe_iff_ensures.mp (hk b hb))

theorem safe_fail {post : β → Prop} {error : RuntimeError}
    (h : p.MayFail error) : Safe p (fail error) post := fun _ => h

theorem safe_outOfFuel {post : β → Prop} :
    Safe p (throw .outOfFuel) post := fun _ => trivial

theorem safe_write (text : String) : Safe p (write text) fun _ => True :=
  fun _ => trivial

theorem safe_read : Safe p read fun _ => True := by
  intro w
  obtain ⟨input, output⟩ := w
  cases input <;> trivial

end Eval

open Eval

/-! ## Values -/

namespace Literal

theorem eq_int {v : Literal} (h : v.ty = .int) : ∃ n, v = .int n := by
  cases v with
  | int n => exact ⟨n, rfl⟩
  | str | bool | unit => cases h

theorem eq_str {v : Literal} (h : v.ty = .str) : ∃ s, v = .str s := by
  cases v with
  | str s => exact ⟨s, rfl⟩
  | int | bool | unit => cases h

theorem eq_bool {v : Literal} (h : v.ty = .bool) : ∃ b, v = .bool b := by
  cases v with
  | bool b => exact ⟨b, rfl⟩
  | int | str | unit => cases h

end Literal

section Values

variable {p : Program α}

/-- An operation on integers is safe. -/
theorem ArithOp.safe_apply {op : ArithOp} {body : Ident} {a b : Literal}
    (ha : a.ty = .int) (hb : b.ty = .int) :
    Safe p (op.apply body a b) (·.ty = .int) := by
  obtain ⟨m, rfl⟩ := Literal.eq_int ha
  obtain ⟨n, rfl⟩ := Literal.eq_int hb
  show Safe p (if op.divides ∧ n = 0 then Eval.fail (.divisionByZero body)
    else Pure.pure (Literal.int (Int64.ofInt (op.exact m.toInt n.toInt)))) _
  split
  · exact safe_fail trivial
  · exact Safe.pure rfl

theorem Comparison.safe_apply {op : Comparison} {a b : Literal}
    (ha : a.ty = .int) (hb : b.ty = .int) :
    Safe p (op.apply a b) (·.ty = .bool) := by
  obtain ⟨m, rfl⟩ := Literal.eq_int ha
  obtain ⟨n, rfl⟩ := Literal.eq_int hb
  exact Safe.pure rfl

theorem Literal.safe_asBool {v : Literal} (h : v.ty = .bool) :
    Safe p v.asBool fun b => v = .bool b := by
  obtain ⟨b, rfl⟩ := eq_bool h
  exact Safe.pure rfl

theorem Literal.safe_asStr {v : Literal} (h : v.ty = .str) :
    Safe p v.asStr fun s => v = .str s := by
  obtain ⟨s, rfl⟩ := eq_str h
  exact Safe.pure rfl

/-- A conversion of a value that can be converted is safe. -/
theorem Conversion.safe_apply {target : Conversion} {v : Literal}
    (h : v.ty.IsConvertible) :
    Safe p (target.apply v) (·.ty = target.result) := by
  cases target with
  | toStr => cases v with
    | int | str | bool => exact Safe.pure rfl
    | unit => simp [Ty.IsConvertible, Literal.ty] at h
  | toInt => cases v with
    | int | bool => exact Safe.pure rfl
    | unit => simp [Ty.IsConvertible, Literal.ty] at h
    | str s =>
      show Safe p (numeral s) _
      unfold numeral
      split
      · exact Safe.pure rfl
      · exact safe_fail trivial

end Values

/-! ## Environments -/

/-- **An environment fits a context**: every variable of the context has a
value of its type, or it has none and may be without. -/
def Env.Fits (p : Program α) (body : Ident) (Γ : Context) (env : Env) :
    Prop :=
  ∀ name ty, (name, ty) ∈ Γ → (∀ v, env name = some v → v.ty = ty)
    ∧ (env name = none → p.MayFail (.unset name body))

/-- A context that gives no name two types. -/
def Context.IsFunctional (Γ : Context) : Prop :=
  ∀ name ty ty', (name, ty) ∈ Γ → (name, ty') ∈ Γ → ty = ty'

namespace Env.Fits

variable {p : Program α} {body : Ident} {Γ Γ' : Context} {env : Env}

theorem mono (h : env.Fits p body Γ) (hsub : Γ' ⊆ Γ) :
    env.Fits p body Γ' := fun name ty hmem => h name ty (hsub hmem)

/-- An environment still fits with a value of the right type changed. -/
theorem set (h : env.Fits p body Γ) (hΓ : Γ.IsFunctional) {name : Ident}
    {ty : Ty} (hname : (name, ty) ∈ Γ) {v : Literal} (hv : v.ty = ty) :
    (env.set name v).Fits p body Γ := by
  intro other ty' hother
  unfold Env.set
  by_cases heq : other = name
  · subst heq
    rw [if_pos rfl]
    refine ⟨fun v' hv' => ?_, nofun⟩
    cases hv'
    exact hv.trans (hΓ _ _ _ hname hother)
  · rw [if_neg heq]
    exact h other ty' hother

/-- Reading a variable is safe. -/
theorem safe_read (h : env.Fits p body Γ) {name : Ident} {ty : Ty}
    (hname : (name, ty) ∈ Γ) : Safe p (env.read body name) (·.ty = ty) := by
  obtain ⟨hty, hnone⟩ := h name ty hname
  unfold Env.read
  split
  · next v hv => exact Safe.pure (hty v hv)
  · next hv => exact safe_fail (hnone hv)

end Env.Fits

/-! ## Expressions -/

/-- **Calls are safe**: with arguments of the types of the parameters they
have values of the type of the result. -/
def Calls.AreSafe (p : Program α) (calls : Calls) : Prop :=
  ∀ callee sig args, p.signature? callee = some sig →
    args.map Literal.ty = sig.params →
    Safe p (calls callee args) (·.ty = sig.ret)

namespace Expr

variable [Note α] {p : Program α} {calls : Calls} {body : Ident}
  {Γ : Context} {env : Env}

mutual

/-- **An expression is safe**, and its value has its type. -/
theorem HasType.safe_eval (hcalls : calls.AreSafe p)
    (henv : env.Fits p body Γ) {e : Expr α} {ty : Ty}
    (h : e.HasType p.signature? Γ ty) :
    Safe p (e.eval calls body env) (·.ty = ty) := by
  match h with
  | .lit _ => exact Safe.pure rfl
  | .var _ hname => exact henv.safe_read hname
  | .arith _ hlhs hrhs =>
    exact (hlhs.safe_eval hcalls henv).bind fun a ha =>
      (hrhs.safe_eval hcalls henv).bind fun b hb => ArithOp.safe_apply ha hb
  | .compare _ hlhs hrhs =>
    exact (hlhs.safe_eval hcalls henv).bind fun a ha =>
      (hrhs.safe_eval hcalls henv).bind fun b hb =>
        Comparison.safe_apply ha hb
  | .logic _ hlhs hrhs =>
    refine (hlhs.safe_eval hcalls henv).bind fun a ha =>
      (Literal.safe_asBool ha).bind fun first _ => ?_
    split
    · exact Safe.pure rfl
    · exact hrhs.safe_eval hcalls henv
  | .not _ hoperand =>
    exact (hoperand.safe_eval hcalls henv).bind fun a ha =>
      (Literal.safe_asBool ha).bind fun _ _ => Safe.pure rfl
  | .input _ hprompt =>
    exact (hprompt.safe_eval hcalls henv).bind fun a ha =>
      (Literal.safe_asStr ha).bind fun text _ => (safe_write text).bind
        fun _ _ => safe_read.bind fun _ _ => Safe.pure rfl
  | .convert _ hty hoperand =>
    exact (hoperand.safe_eval hcalls henv).bind fun a ha =>
      Conversion.safe_apply (ha ▸ hty)
  | .call _ hsig hargs =>
    exact (hargs.safe_evalArgs hcalls henv).bind fun values hvalues =>
      hcalls _ _ values hsig hvalues

/-- Arguments are safe, and their values have their types. -/
theorem HaveTypes.safe_evalArgs (hcalls : calls.AreSafe p)
    (henv : env.Fits p body Γ) {args : List (Expr α)} {tys : List Ty}
    (h : HaveTypes p.signature? Γ args tys) :
    Safe p (evalArgs calls body env args) (·.map Literal.ty = tys) := by
  match h with
  | .nil => exact Safe.pure rfl
  | .cons harg hargs =>
    exact (harg.safe_eval hcalls henv).bind fun a ha =>
      (hargs.safe_evalArgs hcalls henv).bind fun as has =>
        Safe.pure (List.cons_eq_cons.mpr ⟨ha, has⟩)

end

theorem HasType.safe_print (hcalls : calls.AreSafe p)
    (henv : env.Fits p body Γ) {e : Expr α} {ty : Ty}
    (h : e.HasType p.signature? Γ ty) :
    Safe p (e.print calls body env) fun _ => True :=
  (h.safe_eval hcalls henv).bind fun _ _ => safe_write _

/-- Printing the values of more expressions is safe. -/
theorem HaveTypes.safe_printMore (hcalls : calls.AreSafe p)
    (henv : env.Fits p body Γ) {es : List (Expr α)} {tys : List Ty}
    (h : HaveTypes p.signature? Γ es tys) :
    Safe p (printMore calls body env es) fun _ => True := by
  induction es generalizing tys with
  | nil => exact Safe.pure trivial
  | cons e es ih =>
    cases h with
    | cons he hes =>
      exact (safe_write _).bind fun _ _ =>
        (he.safe_print hcalls henv).bind fun _ _ => ih hes

/-- **Printing the values of expressions is safe.** -/
theorem HaveTypes.safe_printAll (hcalls : calls.AreSafe p)
    (henv : env.Fits p body Γ) {es : List (Expr α)} {tys : List Ty}
    (h : HaveTypes p.signature? Γ es tys) :
    Safe p (printAll calls body env es) fun _ => True := by
  cases h with
  | nil => exact Safe.pure trivial
  | cons he hes =>
    exact (he.safe_print hcalls henv).bind fun _ _ =>
      hes.safe_printMore hcalls henv

end Expr

/-! ## Statements -/

namespace Stmt

variable [Note α] {sigs : Signatures} {expected : Option Ty}

mutual

/-- A context only grows, by what the statement introduces. -/
theorem HasEffect.context {Γ Γ' : Context} {stmt : Stmt α}
    {returns : Returns} (h : stmt.HasEffect sigs expected Γ Γ' returns) :
    Γ ⊆ Γ' ∧ (Γ.IsFunctional → Γ'.IsFunctional)
      ∧ ∀ b ∈ Γ', b ∈ Γ ∨ b.1 ∈ stmt.introduced := by
  match h with
  | .assign _ _ | .update _ _ | .pass | .print _ | .ret _ _ | .retUnit _
  | .call _ _ _ => exact ⟨List.Subset.refl _, id, fun _ hb => Or.inl hb⟩
  | .introduce _ hnew =>
    refine ⟨List.subset_cons_self _ _, fun hΓ x ty ty' hty hty' => ?_,
      fun b hb => (List.mem_cons.mp hb).symm.imp id ?_⟩
    · rcases List.mem_cons.mp hty with heq | hty
      · rcases List.mem_cons.mp hty' with heq' | hty'
        · exact (Prod.mk.inj (heq.trans heq'.symm)).2
        · exact absurd ((Prod.mk.inj heq).1 ▸ hty') (hnew ty')
      · rcases List.mem_cons.mp hty' with heq' | hty'
        · exact absurd ((Prod.mk.inj heq').1 ▸ hty) (hnew ty)
        · exact hΓ x ty ty' hty hty'
    · rintro rfl
      exact List.mem_singleton_self _
  | .ifElse _ hthen helse _ =>
    obtain ⟨hsub₁, hfun₁, hnew₁⟩ := hthen.context
    obtain ⟨hsub₂, hfun₂, hnew₂⟩ := helse.context
    refine ⟨List.Subset.trans hsub₁ hsub₂, fun hΓ => hfun₂ (hfun₁ hΓ),
      fun b hb => ?_⟩
    rcases hnew₂ b hb with hb | hb
    · exact (hnew₁ b hb).imp_right (List.mem_append_left _)
    · exact Or.inr (List.mem_append_right _ hb)
  | .whileLoop _ hbody _ => exact hbody.context

/-- A context only grows, by what the statements introduce. -/
theorem HaveEffect.context {Γ Γ' : Context} {stmts : List (Stmt α)}
    {before returns : Returns}
    (h : HaveEffect sigs expected Γ before stmts Γ' returns) :
    Γ ⊆ Γ' ∧ (Γ.IsFunctional → Γ'.IsFunctional)
      ∧ ∀ b ∈ Γ', b ∈ Γ ∨ b.1 ∈ introducedAll stmts := by
  match h with
  | .nil => exact ⟨List.Subset.refl _, id, fun _ hb => Or.inl hb⟩
  | .cons hstmt _ hstmts =>
    obtain ⟨hsub₁, hfun₁, hnew₁⟩ := hstmt.context
    obtain ⟨hsub₂, hfun₂, hnew₂⟩ := hstmts.context
    refine ⟨List.Subset.trans hsub₁ hsub₂, fun hΓ => hfun₂ (hfun₁ hΓ),
      fun b hb => ?_⟩
    rcases hnew₂ b hb with hb | hb
    · exact (hnew₁ b hb).imp_right (List.mem_append_left _)
    · exact Or.inr (List.mem_append_right _ hb)

end

end Stmt

/-- Whether control may go on to what follows. -/
def Returns.GoesOn (returns : Returns) : Prop := ∀ ty, returns ≠ .always ty

theorem Returns.goesOn_never : Returns.never.GoesOn := by
  intro ty h
  cases h

/-- **What comes of a statement fits** the context at the end of the body and
the summary: control goes on only if the summary says that it may, and what is
returned has the type that is expected. -/
def Flow.Fits (p : Program α) (body : Ident) (Γ : Context)
    (expected : Option Ty) (returns : Returns) : Flow → Prop
  | .next env => env.Fits p body Γ ∧ returns.GoesOn
  | .returned value => expected = some value.ty

/-- What fits a summary fits any that control may go on by if it may by the
first. -/
theorem Flow.Fits.mono {p : Program α} {body : Ident} {Γ : Context}
    {expected : Option Ty} {returns returns' : Returns} {flow : Flow}
    (h : flow.Fits p body Γ expected returns)
    (hgoes : returns.GoesOn → returns'.GoesOn) :
    flow.Fits p body Γ expected returns' := by
  cases flow with
  | next env => exact ⟨h.1, hgoes h.2⟩
  | returned value => exact h

/-- Control goes on after a choice if it goes on after one of the pieces. -/
theorem Returns.Either.goesOn {one other both : Returns}
    (h : Either one other both) :
    (one.GoesOn → both.GoesOn) ∧ (other.GoesOn → both.GoesOn) := by
  constructor
  · rintro hgoes ty rfl
    cases h with
    | both => exact hgoes ty rfl
  · rintro hgoes ty rfl
    cases h with
    | both => exact hgoes ty rfl

theorem Returns.Then.goesOn_of_second {first second both : Returns}
    (h : Then first second both) (hgoes : second.GoesOn) : both.GoesOn := by
  rintro ty rfl
  cases h with
  | never => exact hgoes ty rfl
  | ends => exact hgoes ty rfl

/-- **A loop is safe** if its condition and its body are, one time round. -/
theorem Eval.safe_loop {p : Program α} {body : Ident} {Γ : Context}
    {expected : Option Ty} {once returns : Returns}
    (hreturns : returns.GoesOn) {cond : Env → Eval Bool}
    {step : Env → Eval Flow}
    (hcond : ∀ env, env.Fits p body Γ → Safe p (cond env) fun _ => True)
    (hstep : ∀ env, env.Fits p body Γ →
      Safe p (step env) (Flow.Fits p body Γ expected once))
    (fuel : Nat) {env : Env} (henv : env.Fits p body Γ) :
    Safe p (loop cond step fuel env)
      (Flow.Fits p body Γ expected returns) := by
  induction fuel generalizing env with
  | zero => exact safe_outOfFuel
  | succ fuel ih =>
    refine (hcond env henv).bind fun holds _ => ?_
    cases holds with
    | false => exact Safe.pure ⟨henv, hreturns⟩
    | true =>
      refine (hstep env henv).bind fun flow hflow => ?_
      cases flow with
      | next env => exact ih hflow.1
      | returned value => exact Safe.pure hflow

namespace Stmt

variable [Note α] {p : Program α} {calls : Calls} {body : Ident}
  {fuel : Nat} {expected : Option Ty} {Γf : Context}

mutual

/-- **A statement is safe**, and what comes of it fits. -/
theorem HasEffect.safe_exec (hcalls : calls.AreSafe p)
    (hΓf : Γf.IsFunctional) {Γ Γ' : Context} {stmt : Stmt α}
    {returns : Returns}
    (h : stmt.HasEffect p.signature? expected Γ Γ' returns) (hsub : Γ' ⊆ Γf)
    {env : Env} (henv : env.Fits p body Γf) :
    Safe p (stmt.exec calls body fuel env)
      (Flow.Fits p body Γf expected returns) := by
  have hfits : env.Fits p body Γ :=
    henv.mono (List.Subset.trans h.context.1 hsub)
  match h with
  | .introduce hinit _ =>
    exact (hinit.safe_eval hcalls hfits).bind fun v hv =>
      Safe.pure ⟨henv.set hΓf (hsub (List.mem_cons_self ..)) hv,
        Returns.goesOn_never⟩
  | .assign hname hvalue =>
    exact (hvalue.safe_eval hcalls hfits).bind fun v hv =>
      Safe.pure ⟨henv.set hΓf (hsub hname) hv, Returns.goesOn_never⟩
  | .update hname hoperand =>
    exact (hfits.safe_read hname).bind fun a ha =>
      (hoperand.safe_eval hcalls hfits).bind fun b hb =>
        (ArithOp.safe_apply ha hb).bind fun v hv =>
          Safe.pure ⟨henv.set hΓf (hsub hname) hv, Returns.goesOn_never⟩
  | .pass => exact Safe.pure ⟨henv, Returns.goesOn_never⟩
  | .print hargs =>
    exact (hargs.safe_printAll hcalls hfits).bind fun _ _ =>
      (safe_write _).bind fun _ _ => Safe.pure ⟨henv, Returns.goesOn_never⟩
  | .ret hexpected hvalue =>
    exact (hvalue.safe_eval hcalls hfits).bind fun v hv =>
      Safe.pure (hexpected.trans (congrArg some hv.symm))
  | .retUnit hexpected => exact Safe.pure hexpected
  | .call hsig hargs _ =>
    exact (hargs.safe_evalArgs hcalls hfits).bind fun values hvalues =>
      (hcalls _ _ values hsig hvalues).bind fun _ _ =>
        Safe.pure ⟨henv, Returns.goesOn_never⟩
  | .ifElse hcond hthen helse hreturns =>
    refine (hcond.safe_eval hcalls hfits).bind fun a ha =>
      (Literal.safe_asBool ha).bind fun holds _ => ?_
    split
    -- what one block introduces may be read behind the other
    · have hsubThen := List.Subset.trans helse.context.1 hsub
      exact (hthen.safe_execAll hcalls hΓf hsubThen henv
        Returns.goesOn_never).mono fun flow hflow =>
          hflow.mono hreturns.goesOn.1
    · exact (helse.safe_execAll hcalls hΓf hsub henv
        Returns.goesOn_never).mono fun flow hflow =>
          hflow.mono hreturns.goesOn.2
  | .whileLoop hcond hbody hreturns =>
    refine safe_loop (fun ty heq => ?_) (fun env henv => ?_)
      (fun env henv => hbody.safe_execAll hcalls hΓf hsub henv
        Returns.goesOn_never) fuel henv
    · -- what may be skipped does not always return
      cases heq ▸ hreturns
    · exact (hcond.safe_eval hcalls
        (henv.mono (List.Subset.trans hbody.context.1 hsub))).bind fun a ha =>
          (Literal.safe_asBool ha).mono fun _ _ => trivial

/-- **Statements are safe**, and what comes of them fits. -/
theorem HaveEffect.safe_execAll (hcalls : calls.AreSafe p)
    (hΓf : Γf.IsFunctional) {Γ Γ' : Context} {stmts : List (Stmt α)}
    {before returns : Returns}
    (h : HaveEffect p.signature? expected Γ before stmts Γ' returns)
    (hsub : Γ' ⊆ Γf) {env : Env} (henv : env.Fits p body Γf)
    (hbefore : before.GoesOn) :
    Safe p (execAll calls body fuel stmts env)
      (Flow.Fits p body Γf expected returns) := by
  match h with
  | .nil => exact Safe.pure ⟨henv, hbefore⟩
  | .cons hstmt hthen hstmts =>
    refine (hstmt.safe_exec hcalls hΓf
      (List.Subset.trans hstmts.context.1 hsub) henv).bind fun flow hflow => ?_
    cases flow with
    | returned value => exact Safe.pure hflow
    | next env =>
      exact hstmts.safe_execAll hcalls hΓf hsub hflow.1
        (hthen.goesOn_of_second hflow.2)

end

end Stmt

/-! ## Programs -/

namespace Env

/-- A name that is no parameter keeps its value. -/
theorem foldl_set_of_notMem {params : List Ident} {name : Ident}
    (h : name ∉ params) (args : List Literal) (env : Env) :
    (params.zip args).foldl (fun env b => env.set b.1 b.2) env name
      = env name := by
  induction params generalizing args env with
  | nil => rfl
  | cons param params ih =>
    obtain ⟨hne, hnot⟩ := not_or.mp (mt List.mem_cons.mpr h)
    cases args with
    | nil => rfl
    | cons arg args => exact (ih hnot args _).trans (if_neg hne)

/-- A parameter has a value of its type, if the arguments have the types of
the parameters. -/
theorem foldl_set_of_mem {params : List (Ident × Ty)} {args : List Literal}
    (hnodup : (params.map Prod.fst).Nodup)
    (hargs : args.map Literal.ty = params.map Prod.snd) {name : Ident}
    {ty : Ty} (h : (name, ty) ∈ params) (env : Env) :
    ∃ v, ((params.map Prod.fst).zip args).foldl
      (fun env b => env.set b.1 b.2) env name = some v ∧ v.ty = ty := by
  induction params generalizing args env with
  | nil => cases h
  | cons param params ih =>
    cases args with
    | nil => cases hargs
    | cons arg args =>
      obtain ⟨hnot, hnodup⟩ := List.nodup_cons.mp hnodup
      obtain ⟨harg, hargs⟩ := List.cons_eq_cons.mp hargs
      rcases List.mem_cons.mp h with rfl | h
      · exact ⟨arg, (foldl_set_of_notMem hnot args _).trans (if_pos rfl),
          harg⟩
      · exact ih hnodup hargs h _

end Env

namespace Definition

variable [Note α] {p : Program α}

/-- **The context at the end of a body**: it has the parameters and what the
body introduces, and the environment that a call starts with fits it. -/
theorem WellTyped.exists_fits {d : Definition α} (hd : d ∈ p.bodies)
    (h : d.WellTyped p.signature?) {args : List Literal}
    (hargs : args.map Literal.ty = d.params.map Prod.snd) :
    ∃ Γ, Stmt.HaveEffect p.signature? (some d.ret) d.params .never
        d.body.stmts Γ (.always d.ret)
      ∧ Γ.IsFunctional
      ∧ (Env.enter (d.params.map Prod.fst) args).Fits p d.name Γ
      ∧ ∀ b ∈ Γ, b ∈ d.params ∨ b.1 ∈ Stmt.introducedAll d.body.stmts := by
  obtain ⟨hnodup, Γ, hbody⟩ := h
  obtain ⟨hsub, hfun, hnew⟩ := hbody.context
  have hΓ : Γ.IsFunctional := by
    refine hfun fun name ty ty' hty hty' => ?_
    -- two types of one parameter are the type of one argument
    obtain ⟨v, hv, rfl⟩ := Env.foldl_set_of_mem hnodup hargs hty .empty
    obtain ⟨v', hv', rfl⟩ := Env.foldl_set_of_mem hnodup hargs hty' .empty
    rw [Option.some.inj (hv.symm.trans hv')]
  refine ⟨Γ, hbody, hΓ, fun name ty hname => ?_, hnew⟩
  by_cases hparam : name ∈ d.params.map Prod.fst
  · obtain ⟨⟨_, ty'⟩, hmem, rfl⟩ := List.mem_map.mp hparam
    obtain ⟨v, hv, hty⟩ := Env.foldl_set_of_mem hnodup hargs hmem .empty
    unfold Env.enter
    rw [hv]
    refine ⟨fun v' hv' => ?_, nofun⟩
    cases hv'
    exact hty.trans (hΓ _ _ _ (hsub hmem) hname)
  -- without a value is only what the body introduces
  · have hnone := Env.foldl_set_of_notMem hparam args .empty
    unfold Env.enter
    rw [hnone]
    refine ⟨nofun, fun _ => ⟨d, hd, rfl, ?_, hparam⟩⟩
    exact (hnew _ hname).resolve_left fun hmem =>
      hparam (List.mem_map.mpr ⟨_, hmem, rfl⟩)

/-- **A definition is safe**, and what it returns has the declared type. -/
theorem WellTyped.safe_exec {calls : Calls} (hcalls : calls.AreSafe p)
    {d : Definition α} (hd : d ∈ p.bodies) (h : d.WellTyped p.signature?)
    (fuel : Nat) {args : List Literal}
    (hargs : args.map Literal.ty = d.params.map Prod.snd) :
    Safe p (d.exec calls fuel args) (·.ty = d.ret) := by
  obtain ⟨Γ, hbody, hΓ, henv, -⟩ := h.exists_fits hd hargs
  have hlen : args.length = d.params.length := by
    simpa using congrArg List.length hargs
  unfold Definition.exec
  rw [if_pos hlen]
  refine (hbody.safe_execAll hcalls hΓ (List.Subset.refl _) henv
    Returns.goesOn_never).bind fun flow hflow => ?_
  cases flow with
  | next env => exact absurd rfl (hflow.2 d.ret)
  | returned v => exact Safe.pure (Option.some.inj hflow).symm

end Definition

namespace Program.WellTyped

variable [Note α] {p : Program α}

/-- **Calls are safe**, whatever fuel there is. -/
theorem safe_call (h : p.WellTyped) (fuel : Nat) :
    Calls.AreSafe p (p.call fuel) := by
  induction fuel with
  | zero => exact fun _ _ _ _ _ => safe_outOfFuel
  | succ fuel ih =>
    intro callee sig args hsig hargs
    obtain ⟨d, hd, rfl⟩ := Option.map_eq_some_iff.mp hsig
    have hmem := List.mem_of_find?_eq_some hd
    unfold call
    rw [hd]
    exact (h.definitions d hmem).safe_exec ih
      (List.mem_append_left _ hmem) fuel hargs

/-- **The context at the end of the main script**: it has what the script
introduces, and the empty environment fits it. -/
theorem exists_fits (h : p.WellTyped) :
    ∃ Γ, Stmt.HaveEffect p.signature? none [] .never p.main.stmts Γ .never
      ∧ Γ.IsFunctional ∧ Env.empty.Fits p Program.entryPoint Γ
      ∧ ∀ b ∈ Γ, b.1 ∈ Stmt.introducedAll p.main.stmts := by
  obtain ⟨Γ, hmain⟩ := h.main
  obtain ⟨-, hfun, hnew⟩ := hmain.context
  have hintroduced : ∀ b ∈ Γ, b.1 ∈ Stmt.introducedAll p.main.stmts :=
    fun b hb => (hnew b hb).resolve_left List.not_mem_nil
  refine ⟨Γ, hmain, hfun nofun, fun name ty hname => ?_, hintroduced⟩
  exact ⟨nofun, fun _ => ⟨p.script, List.mem_append_right _ (by simp), rfl,
    hintroduced _ hname, List.not_mem_nil⟩⟩

/-- **A well typed program is safe.** -/
theorem safe_exec (h : p.WellTyped) (fuel : Nat) :
    Safe p (p.exec fuel) fun _ => True := by
  obtain ⟨Γ, hmain, hΓ, henv, -⟩ := h.exists_fits
  refine (hmain.safe_execAll (h.safe_call fuel) hΓ (List.Subset.refl _) henv
    Returns.goesOn_never).bind fun flow hflow => ?_
  cases flow with
  | next env => exact Safe.pure trivial
  | returned v => cases hflow

end Program.WellTyped

end Primer
