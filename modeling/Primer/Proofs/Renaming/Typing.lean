import Primer.Proofs.Renaming.Basic
import Primer.Proofs.Typing.Scopes

/-!
# Checking a renamed program

A program that passes the check passes it under other names as well, as long
as different names stay different, and what comes back is what came back
before, under the new names. Only the names of variables are ever compared by
the check, and only those in one scope, and a definition is found by its new
name where it was found by the old one.

The check is followed step by step, like in `Expr.check_sound`; a scope that
is being filled has places only, so its names are those of places.
-/

namespace Primer

variable {ν : Names} {scope : Scope} {Γ : Context} {sigs sigs' : Signatures}

/-! ## Scopes -/

namespace Scope

/-- **A renamed place is found by its new name**, with its type. -/
theorem find?_rename (hν : ν.slot.Injective)
    (hplaces : ∀ s ∈ scope.newestFirst, s.isStorage = true) (name : Slot) :
    (scope.rename ν).find? (ν.slot name)
      = (scope.find? name).map (·.rename ν) := by
  obtain ⟨owner, ss⟩ := scope
  unfold find? rename
  induction ss with
  | nil => rfl
  | cons s ss ih =>
    have hname : (s.rename ν).name = ν.slot s.name :=
      if_pos (hplaces s (List.mem_cons_self ..))
    have ih := ih fun s hs => hplaces s (List.mem_cons_of_mem _ hs)
    simp only [List.map_cons, List.find?_cons, hname, hν.beq_eq]
    cases s.name == name with
    | true => rfl
    | false => exact ih

variable (hΓ : scope.Holds Γ) (hν : ν.slot.Injective)

include hΓ hν

/-- A renamed variable has the same type. -/
theorem typeOf_rename {name : Ident} {span : Span} {ty : Ty}
    (h : scope.typeOf name span = .ok ty) :
    (scope.rename ν).typeOf (ν.slot name) span = .ok ty := by
  have hty : ((scope.rename ν).find? (ν.slot name)).bind Symbol.ty?
      = (scope.find? name).bind Symbol.ty? := by
    rw [find?_rename hν fun s hs => (hΓ.places s hs).1, Option.bind_map]
    rfl
  rw [typeOf] at h ⊢
  rw [hty]
  split at h
  · exact h
  · cases h

/-- A place that is new under its name is new under the new name. -/
theorem declare_rename {symbol : Symbol} (hstorage : symbol.isStorage = true)
    {scope' : Scope} (h : scope.declare symbol = .ok scope') :
    (scope.rename ν).declare (symbol.rename ν) = .ok (scope'.rename ν) := by
  have hname : (symbol.rename ν).name = ν.slot symbol.name := if_pos hstorage
  rw [declare] at h ⊢
  rw [hname, find?_rename hν fun s hs => (hΓ.places s hs).1,
    Option.isSome_map]
  split at h
  · cases h
  · next hnew =>
    cases h
    rw [if_neg hnew]
    rfl

end Scope

/-! ## Expressions -/

namespace Expr

theorem forCall_rename
    (hsigs : ∀ callee, sigs' (ν.routine callee) = sigs callee)
    {callee : Ident} {found : Nat} {span : Span} {sig : Signature}
    (h : sigs.forCall callee found span = .ok sig) :
    sigs'.forCall (ν.routine callee) found span = .ok sig := by
  rw [forCall_eq_ok] at h ⊢
  rw [hsigs]
  exact h

theorem expectValue_rename (e : Expr Judged) (ty : Ty) :
    (e.rename ν).expectValue ty = e.expectValue ty := by
  rw [expectValue, ty_rename, span_rename, expectValue]

theorem expectOperand_rename (e : Expr Judged) (operator : Operator)
    (ty : Ty) :
    (e.rename ν).expectOperand operator ty = e.expectOperand operator ty := by
  rw [expectOperand, ty_rename, span_rename, expectOperand]

theorem expectConvertible_rename (e : Expr Judged) (target : Conversion) :
    (e.rename ν).expectConvertible target = e.expectConvertible target := by
  rw [expectConvertible, ty_rename, span_rename, expectConvertible]

mutual

/-- **A renamed expression passes the check** if the expression does. -/
theorem check_rename (hΓ : scope.Holds Γ) (hν : ν.slot.Injective)
    (hsigs : ∀ callee, sigs' (ν.routine callee) = sigs callee)
    {e : Expr Span} {e' : Expr Judged}
    (h : e.check sigs scope = .ok e') :
    (e.rename ν).check sigs' (scope.rename ν) = .ok (e'.rename ν) := by
  match e with
  | .lit span value =>
    cases pure_eq_ok.mp h
    rfl
  | .var span name =>
    obtain ⟨ty, hty, h⟩ := bind_eq_ok.mp h
    cases pure_eq_ok.mp h
    exact bind_eq_ok.mpr ⟨ty, Scope.typeOf_rename hΓ hν hty, rfl⟩
  | .binary span op lhs rhs =>
    obtain ⟨lhs', hlhs, h⟩ := bind_eq_ok.mp h
    obtain ⟨rhs', hrhs, h⟩ := bind_eq_ok.mp h
    obtain ⟨_, hadmit, h⟩ := bind_eq_ok.mp h
    cases pure_eq_ok.mp h
    refine bind_eq_ok.mpr ⟨_, check_rename hΓ hν hsigs hlhs, bind_eq_ok.mpr
      ⟨_, check_rename hΓ hν hsigs hrhs, bind_eq_ok.mpr ⟨(), ?_, rfl⟩⟩⟩
    rw [ty_rename, ty_rename]
    exact hadmit
  | .not span operand =>
    obtain ⟨operand', hoperand, h⟩ := bind_eq_ok.mp h
    obtain ⟨_, hty, h⟩ := bind_eq_ok.mp h
    cases pure_eq_ok.mp h
    exact bind_eq_ok.mpr ⟨_, check_rename hΓ hν hsigs hoperand, bind_eq_ok.mpr
      ⟨(), (operand'.expectOperand_rename _ _).trans hty, rfl⟩⟩
  | .input span prompt =>
    obtain ⟨prompt', hprompt, h⟩ := bind_eq_ok.mp h
    obtain ⟨_, hty, h⟩ := bind_eq_ok.mp h
    cases pure_eq_ok.mp h
    exact bind_eq_ok.mpr ⟨_, check_rename hΓ hν hsigs hprompt, bind_eq_ok.mpr
      ⟨(), (prompt'.expectOperand_rename _ _).trans hty, rfl⟩⟩
  | .convert span target operand =>
    obtain ⟨operand', hoperand, h⟩ := bind_eq_ok.mp h
    obtain ⟨_, hty, h⟩ := bind_eq_ok.mp h
    cases pure_eq_ok.mp h
    exact bind_eq_ok.mpr ⟨_, check_rename hΓ hν hsigs hoperand, bind_eq_ok.mpr
      ⟨(), (operand'.expectConvertible_rename _).trans hty, rfl⟩⟩
  | .call span callee args =>
    obtain ⟨sig, hcall, h⟩ := bind_eq_ok.mp h
    obtain ⟨args', hargs, h⟩ := bind_eq_ok.mp h
    cases pure_eq_ok.mp h
    refine bind_eq_ok.mpr ⟨sig, ?_, bind_eq_ok.mpr
      ⟨_, checkArgs_rename hΓ hν hsigs hargs, rfl⟩⟩
    rw [length_renameAll]
    exact forCall_rename hsigs hcall

/-- Renamed arguments pass the check if the arguments do. -/
theorem checkArgs_rename (hΓ : scope.Holds Γ) (hν : ν.slot.Injective)
    (hsigs : ∀ callee, sigs' (ν.routine callee) = sigs callee)
    {callee : Ident} {index : Nat} {params : List Ty}
    {args : List (Expr Span)} {args' : List (Expr Judged)}
    (h : checkArgs sigs scope callee index params args = .ok args') :
    checkArgs sigs' (scope.rename ν) (ν.routine callee) index params
      (renameAll ν args) = .ok (renameAll ν args') := by
  match params, args with
  | [], [] | [], _ :: _ | _ :: _, [] =>
    cases pure_eq_ok.mp h
    rfl
  | param :: params, arg :: args =>
    obtain ⟨arg', harg, h⟩ := bind_eq_ok.mp h
    obtain ⟨_, hty, h⟩ := bind_eq_ok.mp h
    obtain ⟨args', hargs, h⟩ := bind_eq_ok.mp h
    cases pure_eq_ok.mp h
    refine bind_eq_ok.mpr ⟨_, check_rename hΓ hν hsigs harg, bind_eq_ok.mpr
      ⟨(), ?_, bind_eq_ok.mpr ⟨_, checkArgs_rename hΓ hν hsigs hargs, rfl⟩⟩⟩
    unfold expectArgument at hty ⊢
    rw [require_eq_ok] at hty ⊢
    rw [ty_rename]
    exact hty

end

/-- Renamed expressions pass the check if the expressions do. -/
theorem checkAll_rename (hΓ : scope.Holds Γ) (hν : ν.slot.Injective)
    (hsigs : ∀ callee, sigs' (ν.routine callee) = sigs callee)
    {es : List (Expr Span)} {es' : List (Expr Judged)}
    (h : checkAll sigs scope es = .ok es') :
    checkAll sigs' (scope.rename ν) (renameAll ν es)
      = .ok (renameAll ν es') := by
  induction es generalizing es' with
  | nil =>
    cases pure_eq_ok.mp h
    rfl
  | cons e es ih =>
    obtain ⟨e', he, h⟩ := bind_eq_ok.mp h
    obtain ⟨es', hes, h⟩ := bind_eq_ok.mp h
    cases pure_eq_ok.mp h
    exact bind_eq_ok.mpr ⟨_, check_rename hΓ hν hsigs he, bind_eq_ok.mpr
      ⟨_, ih hes, rfl⟩⟩

end Expr

/-! ## Statements -/

namespace Stmt

variable {expected : Expected}

/-- A renamed condition passes the check if the condition does. -/
theorem checkCondition_rename (hΓ : scope.Holds Γ) (hν : ν.slot.Injective)
    (hsigs : ∀ callee, sigs' (ν.routine callee) = sigs callee)
    {construct : Construct} {cond : Expr Span} {cond' : Expr Judged}
    (h : checkCondition sigs scope construct cond = .ok cond') :
    checkCondition sigs' (scope.rename ν) construct (cond.rename ν)
      = .ok (cond'.rename ν) := by
  obtain ⟨_, hcond, h⟩ := bind_eq_ok.mp h
  obtain ⟨_, hty, h⟩ := bind_eq_ok.mp h
  cases pure_eq_ok.mp h
  refine bind_eq_ok.mpr ⟨_, Expr.check_rename hΓ hν hsigs hcond,
    bind_eq_ok.mpr ⟨(), ?_, rfl⟩⟩
  rw [Expr.ty_rename, Expr.span_rename]
  exact hty

mutual

/-- **A renamed statement passes the check** if the statement does, and fills
the scope with the renamed variables. -/
theorem check_rename {scope : Scope} {Γ : Context} (hΓ : scope.Holds Γ)
    (hν : ν.slot.Injective)
    (hsigs : ∀ callee, sigs' (ν.routine callee) = sigs callee)
    {stmt : Stmt Span} {c : Checked (Stmt Judged)}
    (h : stmt.check sigs expected scope = .ok c) :
    (stmt.rename ν).check sigs' expected (scope.rename ν)
      = .ok ⟨c.code.rename ν, c.returns, c.scope.rename ν⟩ := by
  match stmt with
  | .introduce span name ty init =>
    obtain ⟨init', hinit, h⟩ := bind_eq_ok.mp h
    obtain ⟨_, hty, h⟩ := bind_eq_ok.mp h
    obtain ⟨_, hbind, h⟩ := bind_eq_ok.mp h
    cases pure_eq_ok.mp h
    refine bind_eq_ok.mpr ⟨_, Expr.check_rename hΓ hν hsigs hinit,
      bind_eq_ok.mpr ⟨(), (init'.expectValue_rename _).trans hty,
        bind_eq_ok.mpr ⟨_, ?_, rfl⟩⟩⟩
    unfold bind at hbind ⊢
    split at hbind
    · next hdeclare =>
      cases hbind
      have hrenamed := Scope.declare_rename hΓ hν rfl hdeclare
      rw [show Symbol.introduced (ν.slot name) ty
        = (Symbol.introduced name ty).rename ν from rfl, hrenamed]
    · cases hbind
  | .assign span name value =>
    obtain ⟨_, hname, h⟩ := bind_eq_ok.mp h
    obtain ⟨value', hvalue, h⟩ := bind_eq_ok.mp h
    obtain ⟨_, hty, h⟩ := bind_eq_ok.mp h
    cases pure_eq_ok.mp h
    exact bind_eq_ok.mpr ⟨_, Scope.typeOf_rename hΓ hν hname,
      bind_eq_ok.mpr ⟨_, Expr.check_rename hΓ hν hsigs hvalue,
        bind_eq_ok.mpr ⟨(), (value'.expectValue_rename _).trans hty, rfl⟩⟩⟩
  | .update span op name operand =>
    obtain ⟨_, hname, h⟩ := bind_eq_ok.mp h
    obtain ⟨_, hint, h⟩ := bind_eq_ok.mp h
    obtain ⟨operand', hoperand, h⟩ := bind_eq_ok.mp h
    obtain ⟨_, hty, h⟩ := bind_eq_ok.mp h
    cases pure_eq_ok.mp h
    exact bind_eq_ok.mpr ⟨_, Scope.typeOf_rename hΓ hν hname,
      bind_eq_ok.mpr ⟨(), hint, bind_eq_ok.mpr
        ⟨_, Expr.check_rename hΓ hν hsigs hoperand, bind_eq_ok.mpr
          ⟨(), (operand'.expectValue_rename _).trans hty, rfl⟩⟩⟩⟩
  | .pass span =>
    cases pure_eq_ok.mp h
    rfl
  | .print span args =>
    obtain ⟨_, hargs, h⟩ := bind_eq_ok.mp h
    cases pure_eq_ok.mp h
    exact bind_eq_ok.mpr ⟨_, Expr.checkAll_rename hΓ hν hsigs hargs, rfl⟩
  | .ret span value =>
    cases expected with
    | none => cases h
    | some ty =>
      obtain ⟨_, hvalue, h⟩ := bind_eq_ok.mp h
      obtain ⟨_, hty, h⟩ := bind_eq_ok.mp h
      cases pure_eq_ok.mp h
      refine bind_eq_ok.mpr ⟨_, Expr.check_rename hΓ hν hsigs hvalue,
        bind_eq_ok.mpr ⟨(), ?_, rfl⟩⟩
      rw [Expr.ty_rename, Expr.span_rename]
      exact hty
  | .retUnit span =>
    cases expected with
    | none => cases h
    | some ty =>
      obtain ⟨_, hty, h⟩ := bind_eq_ok.mp h
      cases pure_eq_ok.mp h
      exact bind_eq_ok.mpr ⟨(), hty, rfl⟩
  | .call span callee args =>
    obtain ⟨_, hcall, h⟩ := bind_eq_ok.mp h
    obtain ⟨_, hargs, h⟩ := bind_eq_ok.mp h
    obtain ⟨_, hret, h⟩ := bind_eq_ok.mp h
    cases pure_eq_ok.mp h
    refine bind_eq_ok.mpr ⟨_, ?_, bind_eq_ok.mpr
      ⟨_, Expr.checkArgs_rename hΓ hν hsigs hargs, bind_eq_ok.mpr
        ⟨(), require_eq_ok.mpr (require_eq_ok.mp hret), rfl⟩⟩⟩
    rw [Expr.length_renameAll]
    exact Expr.forCall_rename hsigs hcall
  | .ifElse span cond ⟨thenStmts, _⟩ ⟨elseStmts, _⟩ =>
    obtain ⟨_, hcond, h⟩ := bind_eq_ok.mp h
    obtain ⟨_, hthen, h⟩ := bind_eq_ok.mp h
    obtain ⟨_, helse, h⟩ := bind_eq_ok.mp h
    obtain ⟨_, hmerge, h⟩ := bind_eq_ok.mp h
    cases pure_eq_ok.mp h
    obtain ⟨-, -, _, -, hΓ₁⟩ := checkAll_sound hΓ hthen
    exact bind_eq_ok.mpr ⟨_, checkCondition_rename hΓ hν hsigs hcond,
      bind_eq_ok.mpr ⟨_, checkAll_rename hΓ hν hsigs hthen, bind_eq_ok.mpr
        ⟨_, checkAll_rename hΓ₁ hν hsigs helse, bind_eq_ok.mpr
          ⟨_, hmerge, rfl⟩⟩⟩⟩
  | .whileLoop span cond ⟨bodyStmts, _⟩ =>
    obtain ⟨_, hcond, h⟩ := bind_eq_ok.mp h
    obtain ⟨_, hbody, h⟩ := bind_eq_ok.mp h
    cases pure_eq_ok.mp h
    exact bind_eq_ok.mpr ⟨_, checkCondition_rename hΓ hν hsigs hcond,
      bind_eq_ok.mpr ⟨_, checkAll_rename hΓ hν hsigs hbody, rfl⟩⟩

/-- Renamed statements pass the check if the statements do. -/
theorem checkAll_rename {scope : Scope} {Γ : Context} (hΓ : scope.Holds Γ)
    (hν : ν.slot.Injective)
    (hsigs : ∀ callee, sigs' (ν.routine callee) = sigs callee)
    {before : Returns} {stmts : List (Stmt Span)}
    {c : Checked (List (Stmt Judged))}
    (h : checkAll sigs expected scope before stmts = .ok c) :
    checkAll sigs' expected (scope.rename ν) before (renameAll ν stmts)
      = .ok ⟨renameAll ν c.code, c.returns, c.scope.rename ν⟩ := by
  match stmts with
  | [] =>
    cases pure_eq_ok.mp h
    rfl
  | stmt :: stmts =>
    obtain ⟨_, hstmt, h⟩ := bind_eq_ok.mp h
    obtain ⟨_, hthen, h⟩ := bind_eq_ok.mp h
    obtain ⟨_, hstmts, h⟩ := bind_eq_ok.mp h
    cases pure_eq_ok.mp h
    obtain ⟨-, -, _, -, hΓ₁⟩ := check_sound hΓ hstmt
    refine bind_eq_ok.mpr ⟨_, check_rename hΓ hν hsigs hstmt, bind_eq_ok.mpr
      ⟨_, ?_, bind_eq_ok.mpr ⟨_, checkAll_rename hΓ₁ hν hsigs hstmts, rfl⟩⟩⟩
    rw [span_rename]
    exact hthen

end

end Stmt

/-! ## Programs -/

/-- **The checked program with new names.** -/
def TypedProgram.rename (ρ : Renaming) (typed : TypedProgram) :
    TypedProgram :=
  ⟨typed.program.rename ρ, typed.symbols.rename ρ⟩

namespace Definition

variable {ρ : Renaming}

/-- Renamed parameters are bound if the parameters are. -/
theorem bindParams_rename (hν : ν.slot.Injective) (hΓ : scope.Holds Γ)
    {scope' : Scope} {span : Span} {params : List (Ident × Ty)}
    (h : bindParams scope span params = .ok scope') :
    bindParams (scope.rename ν) span (ν.params params)
      = .ok (scope'.rename ν) := by
  induction params generalizing scope Γ with
  | nil =>
    cases h
    rfl
  | cons param params ih =>
    obtain ⟨name, ty⟩ := param
    rw [bindParams] at h
    split at h
    · next hdeclare =>
      have hrenamed := Scope.declare_rename hΓ hν rfl hdeclare
      obtain ⟨hnew, rfl⟩ := (hΓ.declare_eq_ok _).mp hdeclare
      rw [Names.params, List.map_cons, bindParams,
        show Symbol.formal (ν.slot name) ty
          = (Symbol.formal name ty).rename ν from rfl, hrenamed]
      exact ih (hΓ.push hnew rfl rfl) h
    · cases h

/-- **A renamed definition passes the check** if the definition does. -/
theorem check_rename (hρ : ρ.IsFaithful)
    (hsigs : ∀ callee, sigs' (ρ.routine callee) = sigs callee)
    {d : Definition Span} {c : Definition Judged × Scope}
    (h : d.check sigs = .ok c) :
    (d.rename ρ).check sigs'
      = .ok (c.1.rename ρ, c.2.rename (ρ.inBody c.2.owner)) := by
  obtain ⟨-, -, howner, -⟩ := check_sound h
  obtain ⟨_, hparams, h⟩ := bind_eq_ok.mp h
  obtain ⟨_, hbody, h⟩ := bind_eq_ok.mp h
  obtain ⟨_, hreturn, h⟩ := bind_eq_ok.mp h
  cases pure_eq_ok.mp h
  obtain ⟨checked, hchecked, hbody⟩ := bind_eq_ok.mp hbody
  cases pure_eq_ok.mp hbody
  have hν := (hρ.inBody d.name).slot_injective
  obtain ⟨-, -, hholds, -⟩ :=
    bindParams_eq_ok (Scope.holds_empty d.name) hparams
  have hparams := bindParams_rename hν (Scope.holds_empty d.name) hparams
  have hchecked := Stmt.checkAll_rename hholds hν hsigs hchecked
  rw [howner]
  exact bind_eq_ok.mpr ⟨_, hparams, bind_eq_ok.mpr
    ⟨_, bind_eq_ok.mpr ⟨_, hchecked, rfl⟩, bind_eq_ok.mpr
      ⟨(), expectReturn_eq_ok.mpr (expectReturn_eq_ok.mp hreturn), rfl⟩⟩⟩

/-- Renamed definitions pass the check if the definitions do. -/
theorem checkAll_rename (hρ : ρ.IsFaithful)
    (hsigs : ∀ callee, sigs' (ρ.routine callee) = sigs callee)
    {ds : List (Definition Span)} {cs : List (Definition Judged × Scope)}
    (h : checkAll sigs ds = .ok cs) :
    checkAll sigs' (ds.map (·.rename ρ)) = .ok (cs.map fun c =>
      (c.1.rename ρ, c.2.rename (ρ.inBody c.2.owner))) := by
  induction ds generalizing cs with
  | nil =>
    cases pure_eq_ok.mp h
    rfl
  | cons d ds ih =>
    obtain ⟨c, hd, h⟩ := bind_eq_ok.mp h
    obtain ⟨cs, hds, h⟩ := bind_eq_ok.mp h
    cases pure_eq_ok.mp h
    exact bind_eq_ok.mpr ⟨_, check_rename hρ hsigs hd, bind_eq_ok.mpr
      ⟨_, ih hds, rfl⟩⟩

/-- Renamed definitions have different names if the definitions have. -/
theorem expectDistinct_rename (hρ : ρ.IsFaithful) {earlier : List Ident}
    {ds : List (Definition Span)} {u : Unit}
    (h : expectDistinct earlier ds = .ok u) :
    expectDistinct (earlier.map ρ.routine) (ds.map (·.rename ρ))
      = .ok u := by
  induction ds generalizing earlier with
  | nil => exact h
  | cons d ds ih =>
    rw [expectDistinct] at h
    split at h
    · cases h
    · next hnew =>
      rw [not_or] at hnew
      have hentry : ρ.routine d.name ≠ Program.entryPoint := fun heq =>
        hnew.1 (hρ.routine_injective (heq.trans hρ.entryPoint.symm))
      have hearlier : ρ.routine d.name ∉ earlier.map ρ.routine := fun hmem =>
        hnew.2 ((List.mem_map_of_injective hρ.routine_injective).mp hmem)
      exact (if_neg (not_or.mpr ⟨hentry, hearlier⟩)).trans (ih h)

end Definition

/-- **A renamed program passes the check** if the program does. -/
theorem Program.check_rename {ρ : Renaming} (hρ : ρ.IsFaithful)
    {p : Program Span} {typed : TypedProgram} (h : p.check = .ok typed) :
    (p.rename ρ).check = .ok (typed.rename ρ) := by
  obtain ⟨_, hdistinct, h⟩ := bind_eq_ok.mp h
  obtain ⟨cs, hdefinitions, h⟩ := bind_eq_ok.mp h
  obtain ⟨_, hmain, h⟩ := bind_eq_ok.mp h
  cases pure_eq_ok.mp h
  obtain ⟨checked, hchecked, hmain⟩ := bind_eq_ok.mp hmain
  cases pure_eq_ok.mp hmain
  have hsigs := p.signature?_rename hρ.routine_injective
  have hempty := Scope.holds_empty entryPoint
  obtain ⟨-, howner, -⟩ := Stmt.checkAll_sound hempty hchecked
  have hdistinct := Definition.expectDistinct_rename hρ hdistinct
  have hdefinitions := Definition.checkAll_rename hρ hsigs hdefinitions
  have hchecked := Stmt.checkAll_rename hempty
    (hρ.inBody entryPoint).slot_injective hsigs hchecked
  have hstart : (Scope.empty entryPoint).rename (ρ.inBody entryPoint)
      = .empty entryPoint := congrArg (Scope.mk · []) hρ.entryPoint
  rw [hstart] at hchecked
  have hmain : (p.main.rename (ρ.inBody entryPoint)).check
      (p.rename ρ).signature? none (.empty entryPoint)
      = .ok ⟨⟨Stmt.renameAll (ρ.inBody entryPoint) checked.code,
          p.main.span⟩, checked.returns,
        checked.scope.rename (ρ.inBody entryPoint)⟩ :=
    bind_eq_ok.mpr ⟨_, hchecked, rfl⟩
  refine bind_eq_ok.mpr ⟨(), hdistinct, bind_eq_ok.mpr
    ⟨_, hdefinitions, bind_eq_ok.mpr ⟨_, hmain, congrArg Except.ok ?_⟩⟩⟩
  have howner : checked.scope.owner = entryPoint := howner
  simp only [TypedProgram.rename, rename, SymbolTable.rename, Block.rename,
    SymbolTable.empty, Scope.empty, List.map_map, List.map_append,
    List.map_cons, List.map_nil, howner]
  rfl

end Primer
