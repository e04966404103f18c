import Primer.Proofs.Tables
import Primer.Proofs.Typing.Erasure
import Primer.Typing.Program

/-!
# Checking decides the typing rules

The checker fills a scope as it goes and stops at the first error; the typing
rules know of neither. What connects the two is that the scope *holds* the
context (`Scope.Holds`): a name is found in the one, with its type, exactly if
the other has it.

Two directions are proved, each by induction over the syntax. What passes the
check is typed by the rules, with the types that were noted, and is the tree
that was checked (`check_sound`). What is typed by the rules passes the check
(`check_complete`). Together they are `check_eq_ok_iff`.
-/

namespace Primer

/-! ## Checks that succeed -/

/-- Two checks, one after the other, succeed if each does. -/
theorem bind_eq_ok {ε β γ : Type} {x : Except ε β} {f : β → Except ε γ}
    {c : γ} : (x >>= f) = .ok c ↔ ∃ b, x = .ok b ∧ f b = .ok c := by
  cases x with
  | error e => exact ⟨nofun, fun ⟨_, h, _⟩ => nomatch h⟩
  | ok b =>
    refine ⟨fun h => ⟨b, rfl, h⟩, ?_⟩
    rintro ⟨_, hb, hc⟩
    cases hb
    exact hc

theorem pure_eq_ok {ε β : Type} {b c : β} :
    (pure b : Except ε β) = .ok c ↔ b = c :=
  ⟨Except.ok.inj, congrArg Except.ok⟩

theorem require_eq_ok {p : Prop} [Decidable p] {cause : Cause} {span : Span}
    {u : Unit} : require (decide p) cause span = .ok u ↔ p := by
  by_cases hp : p <;> simp [require, refuse, hp]

theorem ite_ok_eq_ok {β : Type} {p : Prop} [Decidable p] {cause : Cause}
    {span : Span} {b c : β}
    (h : (if p then .ok b else refuse cause span) = .ok c) : p ∧ b = c := by
  split at h
  · next hp => exact ⟨hp, Except.ok.inj h⟩
  · cases h

@[simp] theorem refuse_ne_ok {β : Type} {cause : Cause} {span : Span}
    {b : β} : refuse cause span ≠ .ok b := nofun

/-! ## Scopes and contexts -/

namespace Scope

/-- **A scope holds a context**: what a name means in the scope is a place of
the type that the context has for the name. -/
structure Holds (scope : Scope) (Γ : Context) : Prop where
  /-- The variables of the context are found, and no others. -/
  mem : ∀ name ty, (name, ty) ∈ Γ
    ↔ ∃ s, scope.find? name = some s ∧ s.ty? = some ty
  /-- All symbols are places with types. -/
  places : ∀ s ∈ scope.newestFirst,
    s.isStorage = true ∧ s.ty?.isSome = true

theorem holds_empty (owner : String) : (empty owner).Holds [] where
  mem name ty := by simp [empty, find?]
  places s hs := nomatch hs

namespace Holds

variable {scope : Scope} {Γ : Context}

theorem typeOf_eq_ok (h : scope.Holds Γ) {name : Ident} {ty : Ty}
    {span : Span} : scope.typeOf name span = .ok ty ↔ (name, ty) ∈ Γ := by
  rw [h.mem, ← Option.bind_eq_some_iff, Scope.typeOf]
  cases (scope.find? name).bind Symbol.ty? <;> simp

/-- A new name is not found. -/
theorem isNew_iff (h : scope.Holds Γ) {name : Ident} :
    Stmt.IsNew name Γ ↔ scope.find? name = none := by
  constructor
  · intro hnew
    cases hfind : scope.find? name with
    | none => rfl
    | some s =>
      obtain ⟨ty, hty⟩ := Option.isSome_iff_exists.mp
        (h.places s (find?_eq_some hfind).1).2
      exact absurd ((h.mem name ty).mpr ⟨s, hfind, hty⟩) (hnew ty)
  · intro hfind ty hmem
    obtain ⟨s, hs, -⟩ := (h.mem name ty).mp hmem
    rw [hfind] at hs
    cases hs

/-- A scope with a new place holds the context with a new variable. -/
theorem push (h : scope.Holds Γ) {symbol : Symbol} {ty : Ty}
    (hnew : Stmt.IsNew symbol.name Γ) (hplace : symbol.isStorage = true)
    (hty : symbol.ty? = some ty) :
    (scope.push symbol).Holds ((symbol.name, ty) :: Γ) where
  mem name ty' := by
    by_cases hname : symbol.name = name
    · subst hname
      rw [find?_push_self, List.mem_cons]
      simp [hnew ty', hty, eq_comm]
    · rw [find?_push_of_ne _ hname, ← h.mem, List.mem_cons]
      simp [Ne.symm hname]
  places s hs := by
    rcases List.mem_cons.mp hs with rfl | hs
    · exact ⟨hplace, by rw [hty]; rfl⟩
    · exact h.places s hs

/-- A place is declared if its name is new. -/
theorem declare_eq_ok (h : scope.Holds Γ) (symbol : Symbol)
    {scope' : Scope} : scope.declare symbol = .ok scope'
      ↔ Stmt.IsNew symbol.name Γ ∧ scope' = scope.push symbol := by
  rw [h.isNew_iff]
  constructor
  · exact Scope.declare_eq_ok
  · rintro ⟨hnew, rfl⟩
    exact declare_of_find?_eq_none hnew

end Holds

end Scope

theorem Stmt.binds_iff {scope scope' : Scope} {Γ : Context}
    (h : scope.Holds Γ) {name : Ident} {ty : Ty} {span : Span} :
    Stmt.bind scope name ty span = .ok scope'
      ↔ IsNew name Γ ∧ scope' = scope.push (.introduced name ty) := by
  refine Iff.trans ?_ (h.declare_eq_ok (.introduced name ty))
  unfold Stmt.bind
  cases scope.declare (.introduced name ty) <;> simp

/-! ## Expressions -/

namespace Expr

variable {sigs : Signatures} {scope : Scope} {Γ : Context}

/-- The signature for a call that passes one argument for each parameter. -/
theorem forCall_eq_ok {callee : Ident} {found : Nat} {span : Span}
    {sig : Signature} : sigs.forCall callee found span = .ok sig
      ↔ sigs callee = some sig ∧ found = sig.params.length := by
  unfold Signatures.forCall
  cases hsig : sigs callee with
  | none => simp
  | some sig' =>
    by_cases hlen : found = sig'.params.length
    · simp only [if_pos hlen, Except.ok.injEq, Option.some.injEq]
      exact ⟨fun h => ⟨h, h ▸ hlen⟩, And.left⟩
    · simp only [if_neg hlen, Option.some.injEq]
      exact ⟨fun h => absurd h refuse_ne_ok,
        fun ⟨h, hlen'⟩ => absurd (h ▸ hlen') hlen⟩

/-- An operator admits operands of the type that it takes. -/
theorem admit_eq_ok {op : BinOp} {lhs rhs : Ty} {span : Span} {u : Unit} :
    op.admit lhs rhs span = .ok u ↔ lhs = op.operand ∧ rhs = op.operand := by
  unfold BinOp.admit
  split
  · next h =>
    refine ⟨fun hok => absurd hok refuse_ne_ok, fun ⟨hl, hr⟩ => ?_⟩
    exact absurd (hl.trans hr.symm) h.2
  · exact require_eq_ok

theorem HasType.binary {α : Type} [Note α] {note : α} {op : BinOp}
    {lhs rhs : Expr α} (hnote : Note.fits note op.result)
    (hlhs : lhs.HasType sigs Γ op.operand)
    (hrhs : rhs.HasType sigs Γ op.operand) :
    (Expr.binary note op lhs rhs).HasType sigs Γ op.result := by
  cases op with
  | arith op => exact .arith hnote hlhs hrhs
  | compare op => exact .compare hnote hlhs hrhs
  | logic op => exact .logic hnote hlhs hrhs

theorem isConvertible_iff {ty : Ty} : ty.IsConvertible ↔ ty ≠ .unit := by
  cases ty <;> simp [Ty.IsConvertible]

mutual

/-- **What passes the check is the tree that was checked, with the types that
the rules give it.** -/
theorem check_sound (hΓ : scope.Holds Γ) {e : Expr Span} {e' : Expr Judged}
    (h : e.check sigs scope = .ok e') :
    e'.erase = e ∧ e'.HasType sigs Γ e'.ty := by
  match e with
  | .lit span value =>
    cases pure_eq_ok.mp h
    exact ⟨rfl, .lit rfl⟩
  | .var span name =>
    obtain ⟨ty, hty, h⟩ := bind_eq_ok.mp h
    cases pure_eq_ok.mp h
    exact ⟨rfl, .var rfl (hΓ.typeOf_eq_ok.mp hty)⟩
  | .binary span op lhs rhs =>
    obtain ⟨lhs', hlhs, h⟩ := bind_eq_ok.mp h
    obtain ⟨rhs', hrhs, h⟩ := bind_eq_ok.mp h
    obtain ⟨_, hadmit, h⟩ := bind_eq_ok.mp h
    cases pure_eq_ok.mp h
    obtain ⟨rfl, hlhsTy⟩ := check_sound hΓ hlhs
    obtain ⟨rfl, hrhsTy⟩ := check_sound hΓ hrhs
    obtain ⟨hl, hr⟩ := admit_eq_ok.mp hadmit
    exact ⟨rfl, .binary rfl (hl ▸ hlhsTy) (hr ▸ hrhsTy)⟩
  | .not span operand =>
    obtain ⟨operand', hoperand, h⟩ := bind_eq_ok.mp h
    obtain ⟨_, hty, h⟩ := bind_eq_ok.mp h
    cases pure_eq_ok.mp h
    obtain ⟨rfl, hoperandTy⟩ := check_sound hΓ hoperand
    have hty := require_eq_ok.mp hty
    exact ⟨rfl, .not rfl (hty ▸ hoperandTy)⟩
  | .input span prompt =>
    obtain ⟨prompt', hprompt, h⟩ := bind_eq_ok.mp h
    obtain ⟨_, hty, h⟩ := bind_eq_ok.mp h
    cases pure_eq_ok.mp h
    obtain ⟨rfl, hpromptTy⟩ := check_sound hΓ hprompt
    have hty := require_eq_ok.mp hty
    exact ⟨rfl, .input rfl (hty ▸ hpromptTy)⟩
  | .convert span target operand =>
    obtain ⟨operand', hoperand, h⟩ := bind_eq_ok.mp h
    obtain ⟨_, hty, h⟩ := bind_eq_ok.mp h
    cases pure_eq_ok.mp h
    obtain ⟨rfl, hoperandTy⟩ := check_sound hΓ hoperand
    have hty := require_eq_ok.mp hty
    exact ⟨rfl, .convert rfl (isConvertible_iff.mpr hty) hoperandTy⟩
  | .call span callee args =>
    obtain ⟨sig, hcall, h⟩ := bind_eq_ok.mp h
    obtain ⟨args', hargs, h⟩ := bind_eq_ok.mp h
    cases pure_eq_ok.mp h
    obtain ⟨hsig, hlen⟩ := forCall_eq_ok.mp hcall
    obtain ⟨rfl, hargsTy⟩ := checkArgs_sound hΓ hlen hargs
    exact ⟨rfl, .call rfl hsig hargsTy⟩

/-- Arguments that pass the check have the types of the parameters. -/
theorem checkArgs_sound (hΓ : scope.Holds Γ) {callee : Ident} {index : Nat}
    {params : List Ty} {args : List (Expr Span)} {args' : List (Expr Judged)}
    (hlen : args.length = params.length)
    (h : checkArgs sigs scope callee index params args = .ok args') :
    eraseAll args' = args ∧ HaveTypes sigs Γ args' params := by
  match params, args with
  | [], [] =>
    cases pure_eq_ok.mp h
    exact ⟨rfl, .nil⟩
  | param :: params, arg :: args =>
    obtain ⟨arg', harg, h⟩ := bind_eq_ok.mp h
    obtain ⟨_, hty, h⟩ := bind_eq_ok.mp h
    obtain ⟨args', hargs, h⟩ := bind_eq_ok.mp h
    cases pure_eq_ok.mp h
    obtain ⟨rfl, hargTy⟩ := check_sound hΓ harg
    obtain ⟨rfl, hargsTy⟩ := checkArgs_sound hΓ (Nat.succ.inj hlen) hargs
    have hty := require_eq_ok.mp hty
    exact ⟨rfl, .cons (hty ▸ hargTy) hargsTy⟩

end

/-- Expressions that pass the check have the types that were noted. -/
theorem checkAll_sound (hΓ : scope.Holds Γ) {es : List (Expr Span)}
    {es' : List (Expr Judged)} (h : checkAll sigs scope es = .ok es') :
    eraseAll es' = es ∧ HaveTypes sigs Γ es' (es'.map Expr.ty) := by
  induction es generalizing es' with
  | nil =>
    cases pure_eq_ok.mp h
    exact ⟨rfl, .nil⟩
  | cons e es ih =>
    obtain ⟨e', he, h⟩ := bind_eq_ok.mp h
    obtain ⟨es', hes, h⟩ := bind_eq_ok.mp h
    cases pure_eq_ok.mp h
    obtain ⟨rfl, heTy⟩ := check_sound hΓ he
    obtain ⟨rfl, hesTy⟩ := ih hes
    exact ⟨rfl, .cons heTy hesTy⟩

/-- As many expressions have types as there are types. -/
theorem HaveTypes.length_eq {α : Type} [Note α] {es : List (Expr α)}
    {tys : List Ty} (h : HaveTypes sigs Γ es tys) :
    es.length = tys.length := by
  induction es generalizing tys with
  | nil => cases h; rfl
  | cons e es ih =>
    cases h with
    | cons _ hes => exact congrArg Nat.succ (ih hes)

mutual

/-- **What the rules give a type passes the check**, and the type is noted.
-/
theorem HasType.check_complete (hΓ : scope.Holds Γ) {e : Expr Span} {ty : Ty}
    (h : e.HasType sigs Γ ty) :
    ∃ e', e.check sigs scope = .ok e' ∧ e'.ty = ty := by
  match h with
  | .lit _ => exact ⟨_, rfl, rfl⟩
  | .var _ hname =>
    exact ⟨_, bind_eq_ok.mpr ⟨_, hΓ.typeOf_eq_ok.mpr hname, rfl⟩, rfl⟩
  | .arith _ hlhs hrhs | .compare _ hlhs hrhs | .logic _ hlhs hrhs =>
    obtain ⟨_, hl, hlty⟩ := hlhs.check_complete hΓ
    obtain ⟨_, hr, hrty⟩ := hrhs.check_complete hΓ
    exact ⟨_, bind_eq_ok.mpr ⟨_, hl, bind_eq_ok.mpr ⟨_, hr, bind_eq_ok.mpr
      ⟨(), admit_eq_ok.mpr ⟨hlty, hrty⟩, rfl⟩⟩⟩, rfl⟩
  | .not _ hoperand | .input _ hoperand =>
    obtain ⟨_, ho, hty⟩ := hoperand.check_complete hΓ
    exact ⟨_, bind_eq_ok.mpr ⟨_, ho, bind_eq_ok.mpr
      ⟨(), require_eq_ok.mpr hty, rfl⟩⟩, rfl⟩
  | .convert _ hconv hoperand =>
    obtain ⟨_, ho, hty⟩ := hoperand.check_complete hΓ
    have hne := isConvertible_iff.mp hconv
    exact ⟨_, bind_eq_ok.mpr ⟨_, ho, bind_eq_ok.mpr
      ⟨(), require_eq_ok.mpr (hty ▸ hne), rfl⟩⟩, rfl⟩
  | .call _ hsig hargs =>
    obtain ⟨_, ha⟩ := hargs.checkArgs_complete hΓ _ 0
    exact ⟨_, bind_eq_ok.mpr ⟨_, forCall_eq_ok.mpr ⟨hsig, hargs.length_eq⟩,
      bind_eq_ok.mpr ⟨_, ha, rfl⟩⟩, rfl⟩

/-- Arguments of the types of the parameters pass the check. -/
theorem HaveTypes.checkArgs_complete (hΓ : scope.Holds Γ)
    {args : List (Expr Span)} {params : List Ty}
    (h : HaveTypes sigs Γ args params) (callee : Ident) (index : Nat) :
    ∃ args', checkArgs sigs scope callee index params args = .ok args' := by
  match h with
  | .nil => exact ⟨_, rfl⟩
  | .cons harg hargs =>
    obtain ⟨_, ha, hty⟩ := harg.check_complete hΓ
    obtain ⟨_, has⟩ := hargs.checkArgs_complete hΓ callee (index + 1)
    exact ⟨_, bind_eq_ok.mpr ⟨_, ha, bind_eq_ok.mpr
      ⟨(), require_eq_ok.mpr hty, bind_eq_ok.mpr
        ⟨_, has, rfl⟩⟩⟩⟩

end

/-- Expressions that have types pass the check. -/
theorem HaveTypes.checkAll_complete (hΓ : scope.Holds Γ)
    {es : List (Expr Span)} {tys : List Ty} (h : HaveTypes sigs Γ es tys) :
    ∃ es', checkAll sigs scope es = .ok es' := by
  induction es generalizing tys with
  | nil => exact ⟨_, rfl⟩
  | cons e es ih =>
    cases h with
    | cons he hes =>
      obtain ⟨_, he', -⟩ := he.check_complete hΓ
      obtain ⟨_, hes'⟩ := ih hes
      exact ⟨_, bind_eq_ok.mpr ⟨_, he', bind_eq_ok.mpr ⟨_, hes', rfl⟩⟩⟩

end Expr

/-! ## Summaries -/

namespace Returns

/-- **Sequencing summaries decides the rules for it.** -/
theorem sequence_eq_ok {first second returns : Returns} {span : Span} :
    first.sequence second span = .ok returns ↔ first.Then second returns := by
  constructor
  · intro h
    cases first with
    | never => cases h; exact .never
    | always _ => cases h
    | maybe expected =>
      cases second with
      | never => cases h; exact .goesOn
      | always found =>
        obtain ⟨rfl, hfound⟩ := ite_ok_eq_ok h
        cases hfound
        exact .ends
      | maybe found =>
        obtain ⟨rfl, hfound⟩ := ite_ok_eq_ok h
        cases hfound
        exact .mayEnd
  · intro h
    cases h <;> simp [sequence]

/-- **Merging summaries decides the rules for it.** -/
theorem merge_eq_ok {one other returns : Returns} {span : Span} :
    one.merge other span = .ok returns ↔ one.Either other returns := by
  constructor
  · intro h
    cases one with
    | never =>
      cases h
      cases other with
      | never => exact .neither
      | always _ | maybe _ => exact .second rfl
    | always expected =>
      cases other with
      | never => cases h; exact .first rfl
      | always found =>
        obtain ⟨rfl, hfound⟩ := ite_ok_eq_ok h
        cases hfound
        exact .both
      | maybe found =>
        obtain ⟨rfl, hfound⟩ := ite_ok_eq_ok h
        cases hfound
        exact .maySecond rfl
    | maybe expected =>
      cases other with
      | never => cases h; exact .first rfl
      | always found | maybe found =>
        obtain ⟨rfl, hfound⟩ := ite_ok_eq_ok h
        cases hfound
        exact .mayFirst rfl
  · intro h
    cases h with
    | neither | both => simp [merge, demote]
    | first hty => cases one <;> cases hty <;> rfl
    | second hty => cases other <;> cases hty <;> rfl
    | mayFirst hty => cases other <;> cases hty <;> simp [merge]
    | maySecond hty => cases one <;> cases hty <;> simp [merge]

/-- Demoting a summary follows the rules for it. -/
theorem skippable_iff {once returns : Returns} :
    once.Skippable returns ↔ once.demote = returns := by
  constructor
  · intro h
    cases h with
    | never => rfl
    | returns hty => cases once <;> cases hty <;> rfl
  · rintro rfl
    cases once with
    | never => exact .never
    | always _ | maybe _ => exact .returns rfl

end Returns

/-! ## Statements -/

namespace Stmt

variable {sigs : Signatures} {expected : Expected}

/-- A condition that passes the check is the one that was checked, and it is
a truth value. -/
theorem checkCondition_sound {scope : Scope} {Γ : Context}
    (hΓ : scope.Holds Γ) {construct : Construct} {cond : Expr Span}
    {cond' : Expr Judged}
    (h : checkCondition sigs scope construct cond = .ok cond') :
    cond'.erase = cond ∧ cond'.HasType sigs Γ .bool := by
  obtain ⟨_, hcond, h⟩ := bind_eq_ok.mp h
  obtain ⟨_, hty, h⟩ := bind_eq_ok.mp h
  cases pure_eq_ok.mp h
  obtain ⟨herase, hcondTy⟩ := Expr.check_sound hΓ hcond
  have hty := require_eq_ok.mp hty
  exact ⟨herase, hty ▸ hcondTy⟩

theorem checkCondition_complete {scope : Scope} {Γ : Context}
    (hΓ : scope.Holds Γ) (construct : Construct) {cond : Expr Span}
    (h : cond.HasType sigs Γ .bool) :
    ∃ cond', checkCondition sigs scope construct cond = .ok cond' := by
  obtain ⟨_, hcond, hty⟩ := h.check_complete hΓ
  exact ⟨_, bind_eq_ok.mpr ⟨_, hcond, bind_eq_ok.mpr
    ⟨(), require_eq_ok.mpr hty, rfl⟩⟩⟩

mutual

/-- **What passes the check is the statement that was checked, with the effect
that was found**, and the scope holds the context after it. -/
theorem check_sound {scope : Scope} {Γ : Context} (hΓ : scope.Holds Γ)
    {stmt : Stmt Span} {c : Checked (Stmt Judged)}
    (h : stmt.check sigs expected scope = .ok c) :
    c.code.erase = stmt ∧ c.scope.owner = scope.owner
      ∧ ∃ Γ', c.code.HasEffect sigs expected Γ Γ' c.returns
        ∧ c.scope.Holds Γ' := by
  match stmt with
  | .introduce span name ty init =>
    obtain ⟨_, hinit, h⟩ := bind_eq_ok.mp h
    obtain ⟨_, hty, h⟩ := bind_eq_ok.mp h
    obtain ⟨_, hbind, h⟩ := bind_eq_ok.mp h
    cases pure_eq_ok.mp h
    obtain ⟨rfl, hinitTy⟩ := Expr.check_sound hΓ hinit
    obtain ⟨hnew, rfl⟩ := (binds_iff hΓ).mp hbind
    have hty := require_eq_ok.mp hty
    exact ⟨rfl, rfl, _, .introduce (hty ▸ hinitTy) hnew,
      hΓ.push hnew rfl rfl⟩
  | .assign span name value =>
    obtain ⟨_, hname, h⟩ := bind_eq_ok.mp h
    obtain ⟨_, hvalue, h⟩ := bind_eq_ok.mp h
    obtain ⟨_, hty, h⟩ := bind_eq_ok.mp h
    cases pure_eq_ok.mp h
    obtain ⟨rfl, hvalueTy⟩ := Expr.check_sound hΓ hvalue
    have hty := require_eq_ok.mp hty
    exact ⟨rfl, rfl, _, .assign (hΓ.typeOf_eq_ok.mp hname)
      (hty ▸ hvalueTy), hΓ⟩
  | .update span op name operand =>
    obtain ⟨_, hname, h⟩ := bind_eq_ok.mp h
    obtain ⟨_, hint, h⟩ := bind_eq_ok.mp h
    obtain ⟨_, hoperand, h⟩ := bind_eq_ok.mp h
    obtain ⟨_, hty, h⟩ := bind_eq_ok.mp h
    cases pure_eq_ok.mp h
    obtain ⟨rfl, hoperandTy⟩ := Expr.check_sound hΓ hoperand
    cases require_eq_ok.mp hint
    have hty := require_eq_ok.mp hty
    exact ⟨rfl, rfl, _, .update (hΓ.typeOf_eq_ok.mp hname)
      (hty ▸ hoperandTy), hΓ⟩
  | .pass span =>
    cases pure_eq_ok.mp h
    exact ⟨rfl, rfl, _, .pass, hΓ⟩
  | .print span args =>
    obtain ⟨_, hargs, h⟩ := bind_eq_ok.mp h
    cases pure_eq_ok.mp h
    obtain ⟨rfl, hargsTy⟩ := Expr.checkAll_sound hΓ hargs
    exact ⟨rfl, rfl, _, .print hargsTy, hΓ⟩
  | .ret span value =>
    cases expected with
    | none => cases h
    | some ty =>
      obtain ⟨_, hvalue, h⟩ := bind_eq_ok.mp h
      obtain ⟨_, hty, h⟩ := bind_eq_ok.mp h
      cases pure_eq_ok.mp h
      obtain ⟨rfl, hvalueTy⟩ := Expr.check_sound hΓ hvalue
      have hty := require_eq_ok.mp hty
      exact ⟨rfl, rfl, _, .ret rfl (hty ▸ hvalueTy), hΓ⟩
  | .retUnit span =>
    cases expected with
    | none => cases h
    | some ty =>
      obtain ⟨_, hty, h⟩ := bind_eq_ok.mp h
      cases pure_eq_ok.mp h
      cases require_eq_ok.mp hty
      exact ⟨rfl, rfl, _, .retUnit rfl, hΓ⟩
  | .call span callee args =>
    obtain ⟨_, hcall, h⟩ := bind_eq_ok.mp h
    obtain ⟨_, hargs, h⟩ := bind_eq_ok.mp h
    obtain ⟨_, hret, h⟩ := bind_eq_ok.mp h
    cases pure_eq_ok.mp h
    obtain ⟨hsig, hlen⟩ := Expr.forCall_eq_ok.mp hcall
    obtain ⟨rfl, hargsTy⟩ := Expr.checkArgs_sound hΓ hlen hargs
    have hret := require_eq_ok.mp hret
    exact ⟨rfl, rfl, _, .call hsig hargsTy hret, hΓ⟩
  | .ifElse span cond ⟨thenStmts, _⟩ ⟨elseStmts, _⟩ =>
    obtain ⟨_, hcond, h⟩ := bind_eq_ok.mp h
    obtain ⟨_, hthen, h⟩ := bind_eq_ok.mp h
    obtain ⟨_, helse, h⟩ := bind_eq_ok.mp h
    obtain ⟨_, hmerge, h⟩ := bind_eq_ok.mp h
    cases pure_eq_ok.mp h
    obtain ⟨rfl, hcondTy⟩ := checkCondition_sound hΓ hcond
    obtain ⟨rfl, hone, _, hthenTy, hΓ₁⟩ := checkAll_sound hΓ hthen
    obtain ⟨rfl, hother, _, helseTy, hΓ₂⟩ := checkAll_sound hΓ₁ helse
    exact ⟨rfl, hother.trans hone, _, .ifElse hcondTy hthenTy helseTy
      (Returns.merge_eq_ok.mp hmerge), hΓ₂⟩
  | .whileLoop span cond ⟨bodyStmts, _⟩ =>
    obtain ⟨_, hcond, h⟩ := bind_eq_ok.mp h
    obtain ⟨_, hbody, h⟩ := bind_eq_ok.mp h
    cases pure_eq_ok.mp h
    obtain ⟨rfl, hcondTy⟩ := checkCondition_sound hΓ hcond
    obtain ⟨rfl, howner, _, hbodyTy, hΓ₁⟩ := checkAll_sound hΓ hbody
    exact ⟨rfl, howner, _, .whileLoop hcondTy hbodyTy
      (Returns.skippable_iff.mpr rfl), hΓ₁⟩

/-- What passes the check is the statements that were checked, with the effect
that was found, and the scope holds the context after them. -/
theorem checkAll_sound {scope : Scope} {Γ : Context} (hΓ : scope.Holds Γ)
    {before : Returns} {stmts : List (Stmt Span)}
    {c : Checked (List (Stmt Judged))}
    (h : checkAll sigs expected scope before stmts = .ok c) :
    eraseAll c.code = stmts ∧ c.scope.owner = scope.owner
      ∧ ∃ Γ', HaveEffect sigs expected Γ before c.code Γ' c.returns
        ∧ c.scope.Holds Γ' := by
  match stmts with
  | [] =>
    cases pure_eq_ok.mp h
    exact ⟨rfl, rfl, _, .nil, hΓ⟩
  | stmt :: stmts =>
    obtain ⟨_, hstmt, h⟩ := bind_eq_ok.mp h
    obtain ⟨_, hthen, h⟩ := bind_eq_ok.mp h
    obtain ⟨_, hstmts, h⟩ := bind_eq_ok.mp h
    cases pure_eq_ok.mp h
    obtain ⟨rfl, hfirst, _, hstmtTy, hΓ₁⟩ := check_sound hΓ hstmt
    obtain ⟨rfl, hrest, _, hstmtsTy, hΓ₂⟩ := checkAll_sound hΓ₁ hstmts
    exact ⟨rfl, hrest.trans hfirst, _,
      .cons hstmtTy (Returns.sequence_eq_ok.mp hthen) hstmtsTy, hΓ₂⟩

end

mutual

/-- **What has an effect by the rules passes the check**, which finds that
effect. -/
theorem HasEffect.check_complete {scope : Scope} {Γ Γ' : Context}
    {stmt : Stmt Span} {returns : Returns}
    (h : stmt.HasEffect sigs expected Γ Γ' returns) (hΓ : scope.Holds Γ) :
    ∃ c, stmt.check sigs expected scope = .ok c ∧ c.returns = returns
      ∧ c.scope.Holds Γ' := by
  match h with
  | .introduce hinit hnew =>
    obtain ⟨_, hi, hty⟩ := hinit.check_complete hΓ
    exact ⟨_, bind_eq_ok.mpr ⟨_, hi, bind_eq_ok.mpr
      ⟨(), require_eq_ok.mpr hty, bind_eq_ok.mpr
        ⟨_, (binds_iff hΓ).mpr ⟨hnew, rfl⟩, rfl⟩⟩⟩, rfl,
      hΓ.push hnew rfl rfl⟩
  | .assign hname hvalue =>
    obtain ⟨_, hv, hty⟩ := hvalue.check_complete hΓ
    exact ⟨_, bind_eq_ok.mpr ⟨_, hΓ.typeOf_eq_ok.mpr hname, bind_eq_ok.mpr
      ⟨_, hv, bind_eq_ok.mpr ⟨(), require_eq_ok.mpr hty,
        rfl⟩⟩⟩, rfl, hΓ⟩
  | .update hname hoperand =>
    obtain ⟨_, ho, hty⟩ := hoperand.check_complete hΓ
    exact ⟨_, bind_eq_ok.mpr ⟨_, hΓ.typeOf_eq_ok.mpr hname, bind_eq_ok.mpr
      ⟨(), require_eq_ok.mpr rfl, bind_eq_ok.mpr
        ⟨_, ho, bind_eq_ok.mpr ⟨(), require_eq_ok.mpr hty,
          rfl⟩⟩⟩⟩, rfl, hΓ⟩
  | .pass => exact ⟨_, rfl, rfl, hΓ⟩
  | .print hargs =>
    obtain ⟨_, ha⟩ := hargs.checkAll_complete hΓ
    exact ⟨_, bind_eq_ok.mpr ⟨_, ha, rfl⟩, rfl, hΓ⟩
  | .ret hexpected hvalue =>
    subst hexpected
    obtain ⟨_, hv, hty⟩ := hvalue.check_complete hΓ
    exact ⟨_, bind_eq_ok.mpr ⟨_, hv, bind_eq_ok.mpr
      ⟨(), require_eq_ok.mpr hty, rfl⟩⟩, rfl, hΓ⟩
  | .retUnit hexpected =>
    subst hexpected
    exact ⟨_, bind_eq_ok.mpr
      ⟨(), require_eq_ok.mpr rfl, rfl⟩, rfl, hΓ⟩
  | .call hsig hargs hret =>
    obtain ⟨_, ha⟩ := hargs.checkArgs_complete hΓ _ 0
    exact ⟨_, bind_eq_ok.mpr ⟨_, Expr.forCall_eq_ok.mpr
      ⟨hsig, hargs.length_eq⟩, bind_eq_ok.mpr ⟨_, ha, bind_eq_ok.mpr
        ⟨(), require_eq_ok.mpr hret, rfl⟩⟩⟩, rfl, hΓ⟩
  | .ifElse hcond hthen helse hreturns =>
    obtain ⟨_, hc⟩ := checkCondition_complete hΓ .ifElse hcond
    obtain ⟨_, ht, rfl, hΓ₁⟩ := hthen.checkAll_complete hΓ
    obtain ⟨_, he, rfl, hΓ₂⟩ := helse.checkAll_complete hΓ₁
    exact ⟨_, bind_eq_ok.mpr ⟨_, hc, bind_eq_ok.mpr ⟨_, ht, bind_eq_ok.mpr
      ⟨_, he, bind_eq_ok.mpr ⟨_, Returns.merge_eq_ok.mpr hreturns,
        rfl⟩⟩⟩⟩, rfl, hΓ₂⟩
  | .whileLoop hcond hbody hreturns =>
    obtain ⟨_, hc⟩ := checkCondition_complete hΓ .whileLoop hcond
    obtain ⟨_, hb, rfl, hΓ₁⟩ := hbody.checkAll_complete hΓ
    exact ⟨_, bind_eq_ok.mpr ⟨_, hc, bind_eq_ok.mpr ⟨_, hb, rfl⟩⟩,
      Returns.skippable_iff.mp hreturns, hΓ₁⟩

/-- What has an effect by the rules passes the check, which finds that effect.
-/
theorem HaveEffect.checkAll_complete {scope : Scope} {Γ Γ' : Context}
    {stmts : List (Stmt Span)} {before returns : Returns}
    (h : HaveEffect sigs expected Γ before stmts Γ' returns)
    (hΓ : scope.Holds Γ) :
    ∃ c, checkAll sigs expected scope before stmts = .ok c
      ∧ c.returns = returns ∧ c.scope.Holds Γ' := by
  match h with
  | .nil => exact ⟨_, rfl, rfl, hΓ⟩
  | .cons hstmt hthen hstmts =>
    obtain ⟨_, hs, rfl, hΓ₁⟩ := hstmt.check_complete hΓ
    obtain ⟨_, hss, rfl, hΓ₂⟩ := hstmts.checkAll_complete hΓ₁
    exact ⟨_, bind_eq_ok.mpr ⟨_, hs, bind_eq_ok.mpr
      ⟨_, Returns.sequence_eq_ok.mpr hthen, bind_eq_ok.mpr ⟨_, hss, rfl⟩⟩⟩,
      rfl, hΓ₂⟩

end

mutual

/-- A statement does not return where no return is expected. -/
theorem HasEffect.eq_never {α : Type} [Note α] {Γ Γ' : Context}
    {stmt : Stmt α} {returns : Returns}
    (h : stmt.HasEffect sigs none Γ Γ' returns) : returns = .never := by
  match h with
  | .introduce _ _ | .assign _ _ | .update _ _ | .pass | .print _
  | .call _ _ _ => rfl
  | .ret hexpected _ | .retUnit hexpected => cases hexpected
  | .ifElse _ hthen helse hreturns =>
    cases hthen.eq_never
    cases helse.eq_never
    cases hreturns with
    | neither => rfl
    | first hty | second hty => cases hty
  | .whileLoop _ hbody hreturns =>
    cases hbody.eq_never
    exact (Returns.skippable_iff.mp hreturns).symm

/-- Statements do not return where no return is expected. -/
theorem HaveEffect.eq_never {α : Type} [Note α] {Γ Γ' : Context}
    {stmts : List (Stmt α)} {returns : Returns}
    (h : HaveEffect sigs none Γ .never stmts Γ' returns) :
    returns = .never := by
  match h with
  | .nil => rfl
  | .cons hstmt .never hstmts =>
    cases hstmt.eq_never
    exact hstmts.eq_never

end

end Stmt

/-! ## Definitions and programs -/

namespace Scope

theorem Holds.congr {scope : Scope} {Γ Γ' : Context} (h : scope.Holds Γ)
    (hmem : ∀ b, b ∈ Γ' ↔ b ∈ Γ) : scope.Holds Γ' where
  mem name ty := (hmem _).trans (h.mem name ty)
  places := h.places

end Scope

namespace Definition

variable {sigs : Signatures}

/-- **Binding parameters** succeeds if their names are new and different, and
the scope then holds them. -/
theorem bindParams_eq_ok {scope scope' : Scope} {Γ : Context}
    (hΓ : scope.Holds Γ) {span : Span} {params : List (Ident × Ty)}
    (h : bindParams scope span params = .ok scope') :
    (params.map Prod.fst).Nodup ∧ (∀ b ∈ params, Stmt.IsNew b.1 Γ)
      ∧ scope'.Holds (params ++ Γ) ∧ scope'.owner = scope.owner := by
  induction params generalizing scope Γ with
  | nil =>
    cases h
    exact ⟨List.nodup_nil, nofun, hΓ, rfl⟩
  | cons param params ih =>
    obtain ⟨name, ty⟩ := param
    rw [bindParams] at h
    cases hdeclare : scope.declare (.formal name ty) with
    | error e =>
      rw [hdeclare] at h
      cases h
    | ok next =>
      rw [hdeclare] at h
      obtain ⟨hnew, rfl⟩ := (hΓ.declare_eq_ok _).mp hdeclare
      obtain ⟨hnodup, hfresh, hholds, howner⟩ := ih (hΓ.push hnew rfl rfl) h
      -- the others were new when this one had been declared already
      have hmem : name ∉ params.map Prod.fst := by
        intro hmem
        obtain ⟨b, hb, rfl⟩ := List.mem_map.mp hmem
        exact hfresh b hb ty (List.mem_cons_self ..)
      refine ⟨List.nodup_cons.mpr ⟨hmem, hnodup⟩, ?_, hholds.congr ?_, howner⟩
      · intro b hb
        rcases List.mem_cons.mp hb with rfl | hb
        · exact hnew
        · exact fun ty' hty' => hfresh b hb ty' (List.mem_cons_of_mem _ hty')
      · intro b
        simp only [List.cons_append, List.mem_cons, List.mem_append,
          Symbol.formal]
        exact or_left_comm

/-- Parameters with new and different names are bound. -/
theorem bindParams_complete {scope : Scope} {Γ : Context}
    (hΓ : scope.Holds Γ) (span : Span) {params : List (Ident × Ty)}
    (hnodup : (params.map Prod.fst).Nodup)
    (hnew : ∀ b ∈ params, Stmt.IsNew b.1 Γ) :
    ∃ scope', bindParams scope span params = .ok scope' := by
  induction params generalizing scope Γ with
  | nil => exact ⟨_, rfl⟩
  | cons param params ih =>
    obtain ⟨name, ty⟩ := param
    obtain ⟨hname, hnodup⟩ := List.nodup_cons.mp hnodup
    have hfirst : Stmt.IsNew name Γ := hnew _ (List.mem_cons_self ..)
    have hdeclare := (hΓ.declare_eq_ok (.formal name ty)).mpr
      ⟨hfirst, rfl⟩
    rw [bindParams, hdeclare]
    refine ih (hΓ.push hfirst rfl rfl) hnodup (fun b hb ty' hty' => ?_)
    rcases List.mem_cons.mp hty' with heq | hty'
    · cases heq
      exact hname (List.mem_map.mpr ⟨b, hb, rfl⟩)
    · exact hnew b (List.mem_cons_of_mem _ hb) ty' hty'

theorem expectReturn_eq_ok {name : Ident} {ret : Ty} {returns : Returns}
    {span : Span} {u : Unit} : expectReturn name ret returns span = .ok u
      ↔ returns = .always ret := by
  cases returns <;> simp [expectReturn, require_eq_ok]

/-- **What passes the check is the definition that was checked, well typed**,
and its scope is that of its name and has only places. -/
theorem check_sound {d : Definition Span} {c : Definition Judged × Scope}
    (h : d.check sigs = .ok c) :
    c.1.erase = d ∧ c.1.WellTyped sigs ∧ c.2.owner = d.name
      ∧ ∃ Γ, c.2.Holds Γ := by
  obtain ⟨_, hparams, h⟩ := bind_eq_ok.mp h
  obtain ⟨_, hbody, h⟩ := bind_eq_ok.mp h
  obtain ⟨_, hreturn, h⟩ := bind_eq_ok.mp h
  cases pure_eq_ok.mp h
  obtain ⟨checked, hchecked, hbody⟩ := bind_eq_ok.mp hbody
  cases pure_eq_ok.mp hbody
  obtain ⟨hnodup, -, hholds, howner⟩ :=
    bindParams_eq_ok (Scope.holds_empty d.name) hparams
  rw [List.append_nil] at hholds
  obtain ⟨herase, howner', Γ, heffect, hΓ⟩ :=
    Stmt.checkAll_sound hholds hchecked
  have hreturns := expectReturn_eq_ok.mp hreturn
  refine ⟨?_, ⟨hnodup, Γ, hreturns ▸ heffect⟩, howner'.trans howner, Γ, hΓ⟩
  show Definition.mk d.name d.params d.ret
    ⟨Stmt.eraseAll checked.code, d.body.span⟩ d.nameSpan = d
  rw [herase]

/-- A definition that is well typed passes the check. -/
theorem WellTyped.check_complete {d : Definition Span}
    (h : d.WellTyped sigs) : ∃ c, d.check sigs = .ok c := by
  obtain ⟨hnodup, Γ, heffect⟩ := h
  obtain ⟨scope, hparams⟩ := bindParams_complete (Scope.holds_empty d.name)
    d.nameSpan hnodup (fun _ _ _ => List.not_mem_nil)
  obtain ⟨-, -, hholds, -⟩ :=
    bindParams_eq_ok (Scope.holds_empty d.name) hparams
  rw [List.append_nil] at hholds
  obtain ⟨_, hbody, hreturns, -⟩ := heffect.checkAll_complete hholds
  exact ⟨_, bind_eq_ok.mpr ⟨_, hparams, bind_eq_ok.mpr
    ⟨_, bind_eq_ok.mpr ⟨_, hbody, rfl⟩, bind_eq_ok.mpr
      ⟨(), expectReturn_eq_ok.mpr hreturns, rfl⟩⟩⟩⟩

/-- What passes the check is the definitions that were checked, each of them
well typed, and their scopes hold contexts. -/
theorem checkAll_sound {ds : List (Definition Span)}
    {cs : List (Definition Judged × Scope)} (h : checkAll sigs ds = .ok cs) :
    (cs.map Prod.fst).map erase = ds
      ∧ (∀ d ∈ cs.map Prod.fst, d.WellTyped sigs)
      ∧ ∀ scope ∈ cs.map Prod.snd, ∃ Γ, scope.Holds Γ := by
  induction ds generalizing cs with
  | nil =>
    cases pure_eq_ok.mp h
    exact ⟨rfl, nofun, nofun⟩
  | cons d ds ih =>
    obtain ⟨c, hd, h⟩ := bind_eq_ok.mp h
    obtain ⟨cs, hds, h⟩ := bind_eq_ok.mp h
    cases pure_eq_ok.mp h
    obtain ⟨rfl, hwell, -, hholds⟩ := check_sound hd
    obtain ⟨rfl, hwells, hall⟩ := ih hds
    exact ⟨rfl, List.forall_mem_cons.mpr ⟨hwell, hwells⟩,
      List.forall_mem_cons.mpr ⟨hholds, hall⟩⟩

/-- Definitions that are well typed pass the check. -/
theorem checkAll_complete {ds : List (Definition Span)}
    (h : ∀ d ∈ ds, d.WellTyped sigs) : ∃ cs, checkAll sigs ds = .ok cs := by
  induction ds with
  | nil => exact ⟨_, rfl⟩
  | cons d ds ih =>
    obtain ⟨hd, hds⟩ := List.forall_mem_cons.mp h
    obtain ⟨_, hd⟩ := hd.check_complete
    obtain ⟨_, hds⟩ := ih hds
    exact ⟨_, bind_eq_ok.mpr ⟨_, hd, bind_eq_ok.mpr ⟨_, hds, rfl⟩⟩⟩

/-- Names are distinct if they differ from each other, from earlier ones and
from that of the main script. -/
theorem expectDistinct_eq_ok {earlier : List Ident}
    {ds : List (Definition Span)} {u : Unit} :
    expectDistinct earlier ds = .ok u ↔ (ds.map Definition.name).Nodup
      ∧ (∀ d ∈ ds, d.name ≠ Program.entryPoint)
      ∧ ∀ d ∈ ds, d.name ∉ earlier := by
  induction ds generalizing earlier with
  | nil => simp [expectDistinct]
  | cons d ds ih =>
    rw [expectDistinct]
    split
    · next h =>
      refine ⟨fun hok => absurd hok refuse_ne_ok, fun ⟨_, hentry, hnew⟩ => ?_⟩
      exact h.elim (fun h => absurd h (hentry d (List.mem_cons_self ..)))
        (fun h => absurd h (hnew d (List.mem_cons_self ..)))
    · next h =>
      rw [ih]
      simp only [List.map_cons, List.nodup_cons, List.mem_map,
        List.forall_mem_cons]
      simp only [List.mem_cons, not_or] at h ⊢
      constructor
      · rintro ⟨hnodup, hentry, hnew⟩
        exact ⟨⟨fun ⟨d', hd', hname⟩ => (hnew d' hd').1 hname, hnodup⟩,
          ⟨h.1, hentry⟩, h.2, fun d' hd' => (hnew d' hd').2⟩
      · rintro ⟨⟨hname, hnodup⟩, ⟨-, hentry⟩, -, hnew⟩
        exact ⟨hnodup, hentry, fun d' hd' =>
          ⟨fun heq => hname ⟨d', hd', heq⟩, hnew d' hd'⟩⟩

end Definition

/-- **A typed program is what checking a program gives**: it is that program,
well typed, over a table that has nothing but the places of its bodies. -/
structure TypedProgram.IsCheckOf (typed : TypedProgram) (p : Program Span) :
    Prop where
  /-- It is the program that was checked. -/
  erase : typed.program.erase = p
  /-- It is well typed. -/
  wellTyped : typed.program.WellTyped
  /-- Nothing is global. -/
  global : typed.symbols.global = .empty "<global>"
  /-- No name has been made up. -/
  counter : typed.symbols.counter = 0
  /-- The scopes of the bodies hold contexts. -/
  nested : ∀ scope ∈ typed.symbols.nested, ∃ Γ, scope.Holds Γ

/-- **What passes the check is the program that was checked, well typed.** -/
theorem Program.check_sound {p : Program Span} {typed : TypedProgram}
    (h : p.check = .ok typed) : typed.IsCheckOf p := by
  obtain ⟨_, hdistinct, h⟩ := bind_eq_ok.mp h
  obtain ⟨cs, hdefinitions, h⟩ := bind_eq_ok.mp h
  obtain ⟨_, hmain, h⟩ := bind_eq_ok.mp h
  cases pure_eq_ok.mp h
  obtain ⟨checked, hchecked, hmain⟩ := bind_eq_ok.mp hmain
  cases pure_eq_ok.mp hmain
  obtain ⟨hnodup, hentry, -⟩ := Definition.expectDistinct_eq_ok.mp hdistinct
  obtain ⟨herase, hwell, hholds⟩ := Definition.checkAll_sound hdefinitions
  obtain ⟨hmainErase, -, Γ, hmain, hΓ⟩ :=
    Stmt.checkAll_sound (Scope.holds_empty entryPoint) hchecked
  have hp : Program.erase
      ⟨cs.map Prod.fst, ⟨checked.code, p.main.span⟩⟩ = p := by
    unfold erase Block.erase
    rw [herase, hmainErase]
  -- the bodies were checked against the signatures of the tree without types
  have hsigs : p.signature? = Program.signature?
      ⟨cs.map Prod.fst, ⟨checked.code, p.main.span⟩⟩ := by
    funext name
    rw [← signature?_erase, hp]
  have hnames : (cs.map Prod.fst).map Definition.name
      = p.definitions.map Definition.name := by
    rw [← herase, Definition.map_name_erase]
  constructor
  · exact hp
  · constructor
    · rw [hnames]
      exact hnodup
    · intro d hd
      have hmem : d.erase ∈ (cs.map Prod.fst).map Definition.erase :=
        List.mem_map_of_mem hd
      rw [herase] at hmem
      exact hentry _ hmem
    · rw [← hsigs]
      exact hwell
    · rw [← hsigs]
      exact ⟨Γ, hmain.eq_never ▸ hmain⟩
  · rfl
  · rfl
  · intro scope hscope
    rcases List.mem_append.mp hscope with hscope | hscope
    · exact hholds scope hscope
    · exact List.mem_singleton.mp hscope ▸ ⟨Γ, hΓ⟩

/-- A program that is well typed passes the check. -/
theorem Program.WellTyped.check_complete {p : Program Span}
    (h : p.WellTyped) : ∃ typed, p.check = .ok typed := by
  obtain ⟨_, hdefinitions⟩ := Definition.checkAll_complete h.definitions
  obtain ⟨Γ, hmain⟩ := h.main
  obtain ⟨_, hmain, -⟩ :=
    hmain.checkAll_complete (Scope.holds_empty Program.entryPoint)
  exact ⟨_, bind_eq_ok.mpr ⟨(), Definition.expectDistinct_eq_ok.mpr
    ⟨h.distinct, h.entryPoint, fun _ _ => List.not_mem_nil⟩, bind_eq_ok.mpr
      ⟨_, hdefinitions, bind_eq_ok.mpr
        ⟨_, bind_eq_ok.mpr ⟨_, hmain, rfl⟩, rfl⟩⟩⟩⟩

/-- **Checking decides the typing rules**: a program passes the check exactly
if it is well typed. -/
theorem Program.check_eq_ok_iff_wellTyped (p : Program Span) :
    (∃ typed, p.check = .ok typed) ↔ p.WellTyped := by
  refine ⟨fun ⟨typed, h⟩ => ?_, WellTyped.check_complete⟩
  have hcheck := check_sound h
  rw [← hcheck.erase]
  exact hcheck.wellTyped.erase

end Primer
