import Mathlib.Data.List.Nodup
import Primer.Proofs.Emission.Routines

/-!
# The scopes of a checked program

Checking a body fills a scope, and the scopes of all bodies, in the order of
the bodies, become the symbol table. `TypedProgram.IsCheckOf` says of each of
these scopes that it holds some context. Here it is said which context that
is: the one after the statements of the body (`Definition.Fills`).

A table finds the scope of a body by the name of the body. Two bodies have two
names, so what is found is the scope that this very body filled
(`Program.exists_fills_of_check`), and no body of a checked program is without
one.
-/

namespace Primer

open SymbolTable

/-- **A scope is filled by a body**: it belongs to the body, and it holds the
context that the statements of the body lead to. -/
structure Definition.Fills (sigs : Signatures) (d : Definition Judged)
    (scope : Scope) : Prop where
  /-- The scope belongs to the body. -/
  owner : scope.owner = d.name
  /-- It holds the context after the statements, the returns among which have
  the declared type. -/
  holds : ∃ expected Γ returns, (∀ ty, expected = some ty → ty = d.ret)
    ∧ Stmt.HaveEffect sigs expected d.params .never d.body.stmts Γ returns
    ∧ scope.Holds Γ

namespace SymbolTable

/-- Nothing was opened for whoever owns no scope. -/
theorem lastOwned?_eq_none {owner : String} {ss : List Scope} :
    lastOwned? owner ss = none ↔ owner ∉ ss.map Scope.owner := by
  induction ss with
  | nil => simp [lastOwned?]
  | cons s ss ih =>
    rw [lastOwned?, List.map_cons, List.mem_cons, not_or, ← ih]
    cases lastOwned? owner ss with
    | some i => simp
    | none => simp [eq_comm]

end SymbolTable

namespace Definition

variable {sigs : Signatures}

/-- **Checking a definition fills its scope.** -/
theorem fills_of_check {d : Definition Span}
    {c : Definition Judged × Scope} (h : d.check sigs = .ok c) :
    c.1.Fills sigs c.2 := by
  obtain ⟨_, hparams, h⟩ := bind_eq_ok.mp h
  obtain ⟨_, hbody, h⟩ := bind_eq_ok.mp h
  obtain ⟨_, -, h⟩ := bind_eq_ok.mp h
  cases pure_eq_ok.mp h
  obtain ⟨checked, hchecked, hbody⟩ := bind_eq_ok.mp hbody
  cases pure_eq_ok.mp hbody
  obtain ⟨-, -, hholds, howner⟩ :=
    bindParams_eq_ok (Scope.holds_empty d.name) hparams
  rw [List.append_nil] at hholds
  obtain ⟨-, howner', Γ, heffect, hΓ⟩ := Stmt.checkAll_sound hholds hchecked
  exact ⟨howner'.trans howner, some d.ret, Γ, checked.returns,
    fun ty hty => (Option.some.inj hty).symm, heffect, hΓ⟩

/-- Checking definitions fills their scopes, one each. -/
theorem fills_of_checkAll {ds : List (Definition Span)}
    {cs : List (Definition Judged × Scope)} (h : checkAll sigs ds = .ok cs) :
    ∀ c ∈ cs, c.1.Fills sigs c.2 := by
  induction ds generalizing cs with
  | nil =>
    cases pure_eq_ok.mp h
    exact nofun
  | cons d ds ih =>
    obtain ⟨c, hd, h⟩ := bind_eq_ok.mp h
    obtain ⟨cs, hds, h⟩ := bind_eq_ok.mp h
    cases pure_eq_ok.mp h
    exact List.forall_mem_cons.mpr ⟨fills_of_check hd, ih hds⟩

end Definition

namespace Program

/-- **The scopes of a checked program are those of its bodies**, in order,
and each was filled by a body. -/
theorem fills_of_check {p : Program Span} {typed : TypedProgram}
    (h : p.check = .ok typed) :
    typed.symbols.nested.map Scope.owner
        = typed.program.bodies.map Definition.name
      ∧ ∀ scope ∈ typed.symbols.nested, ∃ d ∈ typed.program.bodies,
        d.Fills typed.program.signature? scope := by
  have hsound := check_sound h
  have hsigs : p.signature? = typed.program.signature? := by
    funext name
    rw [← hsound.erase, signature?_erase]
  obtain ⟨_, -, h⟩ := bind_eq_ok.mp h
  obtain ⟨cs, hdefinitions, h⟩ := bind_eq_ok.mp h
  obtain ⟨_, hmain, h⟩ := bind_eq_ok.mp h
  cases pure_eq_ok.mp h
  obtain ⟨checked, hchecked, hmain⟩ := bind_eq_ok.mp hmain
  cases pure_eq_ok.mp hmain
  rw [hsigs] at hdefinitions hchecked
  have hfills := Definition.fills_of_checkAll hdefinitions
  obtain ⟨-, howner, Γ, heffect, hΓ⟩ :=
    Stmt.checkAll_sound (Scope.holds_empty entryPoint) hchecked
  rw [bodies]
  constructor
  · rw [List.map_append, List.map_append, List.map_map, List.map_map]
    refine congrArg₂ (· ++ ·) (List.map_congr_left fun c hc => ?_)
      (congrArg ([·]) howner)
    exact (hfills c hc).owner
  · intro scope hscope
    rcases List.mem_append.mp hscope with hscope | hscope
    · obtain ⟨c, hc, rfl⟩ := List.mem_map.mp hscope
      exact ⟨c.1, List.mem_append_left _ (List.mem_map_of_mem hc), hfills c hc⟩
    · cases List.mem_singleton.mp hscope
      -- no type is expected of what the main script returns
      refine ⟨_, List.mem_append_right _ (List.mem_singleton_self _), howner,
        none, Γ, checked.returns, fun ty hty => ?_, heffect, hΓ⟩
      cases hty

/-- **Every body of a checked program has a scope**, and it is the one that
the body filled. -/
theorem exists_fills_of_check {p : Program Span} {typed : TypedProgram}
    (h : p.check = .ok typed) {d : Definition Judged}
    (hd : d ∈ typed.program.bodies) :
    ∃ id, typed.symbols.scopeOf? d.name = some id
      ∧ d.Fills typed.program.signature? (typed.symbols.scope id) := by
  obtain ⟨howners, hfills⟩ := fills_of_check h
  cases hlast : lastOwned? d.name typed.symbols.nested with
  | none =>
    rw [lastOwned?_eq_none, howners] at hlast
    exact absurd (List.mem_map_of_mem hd) hlast
  | some i =>
    obtain ⟨scope, hscope, howner⟩ := lastOwned?_eq_some hlast
    obtain ⟨d', hd', hfill⟩ := hfills scope (List.mem_of_getElem? hscope)
    -- the scope is that of a body with this name, and there is only one
    have hname : d'.name = d.name := hfill.owner.symm.trans howner
    have hnodup := (check_sound h).wellTyped.nodup_bodies
    cases List.inj_on_of_nodup_map hnodup hd' hd hname
    refine ⟨.nested i, by rw [scopeOf?, hlast]; rfl, ?_⟩
    rw [SymbolTable.scope, hscope]
    exact hfill

end Program

end Primer
