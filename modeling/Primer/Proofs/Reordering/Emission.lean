import Primer.Proofs.Emission.Places
import Primer.Proofs.Renaming.Hygiene
import Primer.Proofs.Reordering.Names
import Primer.Proofs.Reordering.Programs

/-!
# Code for a program in another order

The routines of a program are emitted over one table, one after the other, so
the names that a routine gets depend on all routines before it. In another
order they are others.

Still each routine is emitted over some table in which its scope is the one
that the check left, and what it asks that table for is known from its body
alone (`Definition.EmittedAs`). What becomes of its scope afterwards has to do
with no other routine, and neither has the name of a text once there is one.
That is the account of emission which does not depend on the order
(`TypedProgram.EmittedAs`).
-/

namespace Primer

open SymbolTable

/-! ## One routine -/

/-- A routine is emitted over the table in which its name has been declared,
and that table serves the requests of the body. -/
theorem emitRoutine_eq_ok {constants : Constants} {t t' : SymbolTable}
    {name : Ident} {params : List (Slot × Ty)} {ret : Ty}
    {body : Block (Stmt Judged)} {r : Routine}
    (h : emitRoutine constants t name params ret body = .ok (r, t')) :
    ∃ scope t₁, t.scopeOf? name = some scope
      ∧ t.declare .global (.label name) = .ok t₁
      ∧ r = ⟨⟨name, params, ret, scope⟩,
        ((emitBody constants scope name body.stmts).run t₁).1⟩
      ∧ t' = t₁.serve scope (.label "done" :: Stmt.requestsAll body.stmts) := by
  unfold emitRoutine at h
  split at h
  · cases h
  · next scope hscope =>
    split at h
    · cases h
    · next t₁ hdeclare =>
      split at h
      · cases h
      · have hmirrors := @mirrors_emitBody .same scope scope constants name
          body.stmts
        rw [Stmt.renameAll_same] at hmirrors
        cases h
        exact ⟨scope, t₁, hscope, hdeclare, rfl, hmirrors.run_snd t₁⟩

/-- **A routine was emitted for a body**, between a table before and a table
at the end of all emission. -/
structure Definition.EmittedAs (constants : Constants)
    (before final : SymbolTable) (d : Definition Judged) (r : Routine) :
    Prop where
  /-- It is the routine of the body. -/
  prototype : r.prototype = ⟨d.name, d.params, d.ret, r.prototype.scope⟩
  /-- Its scope is the one of the body. -/
  scopeOf? : before.scopeOf? d.name = some r.prototype.scope
  /-- Its code was emitted over a table in which the scope was the one of
  before; it is the one at the end after the requests have been served, and
  texts keep their names. -/
  code : ∃ t, t.Has r.prototype.scope
    ∧ t.scope r.prototype.scope = before.scope r.prototype.scope
    ∧ r.code = ((emitBody constants r.prototype.scope d.name
      d.body.stmts).run t).1
    ∧ final.scope r.prototype.scope
      = (t.serve r.prototype.scope d.requests).scope r.prototype.scope
    ∧ ∀ text label,
      (t.serve r.prototype.scope d.requests).labelOf? text = some label →
        final.labelOf? text = some label

namespace Definition

/-- What a text is called does not depend on the names of routines, and it
has a name after it was asked for. -/
theorem labelOf?_emitRoutine {constants : Constants} {t t' : SymbolTable}
    {d : Definition Judged} {r : Routine}
    (h : emitRoutine constants t d.name d.params d.ret d.body = .ok (r, t'))
    (text : String) :
    (∀ label, t.labelOf? text = some label → t'.labelOf? text = some label)
      ∧ ((t'.labelOf? text).isSome
        ↔ (t.labelOf? text).isSome ∨ .constant text ∈ d.requests) := by
  obtain ⟨scope, t₁, hscope, hdeclare, -, rfl⟩ := emitRoutine_eq_ok h
  obtain ⟨-, rfl⟩ := declare_global_eq_ok hdeclare
  rw [← labelOf?_declare d.name text]
  exact labelOf?_serve (ne_global_of_scopeOf? hscope) d.requests text

/-- A routine keeps the names of a table in order. -/
theorem inOrder_emitRoutine {constants : Constants} {t t' : SymbolTable}
    {d : Definition Judged} {r : Routine}
    (h : emitRoutine constants t d.name d.params d.ret d.body = .ok (r, t'))
    (hname : Ident.Plain d.name) (ht : t.Distinct) (hnamed : t.Named) :
    t'.Distinct ∧ t'.Named := by
  have hemits := emits_of_emitRoutine h
  constructor
  · exact (ht.declare hname).grows hemits.takes.grows hemits.isBody.1
  · obtain ⟨scope, t₁, hscope, hdeclare, -, rfl⟩ := emitRoutine_eq_ok h
    exact (hnamed.declare hname hdeclare).serve
      (ne_global_of_scopeOf? hscope) d.requests

/-! ## Routines, one after the other -/

variable {constants : Constants} {t t' t₁ : SymbolTable}
  {d : Definition Judged} {ds : List (Definition Judged)} {r : Routine}
  {rs : List Routine}

/-- A routine more at the end. -/
theorem emitDefinitions_concat
    (h : emitDefinitions constants t ds = .ok (rs, t₁))
    (hd : emitRoutine constants t₁ d.name d.params d.ret d.body
      = .ok (r, t')) :
    emitDefinitions constants t (ds ++ [d]) = .ok (rs ++ [r], t') := by
  induction ds generalizing t rs with
  | nil =>
    cases h
    exact bind_eq_ok.mpr ⟨_, hd, bind_eq_ok.mpr ⟨_, rfl, rfl⟩⟩
  | cons first ds ih =>
    obtain ⟨⟨r', t₂⟩, hfirst, h⟩ := bind_eq_ok.mp h
    obtain ⟨⟨rs', t₃⟩, hrest, h⟩ := bind_eq_ok.mp h
    cases pure_eq_ok.mp h
    exact bind_eq_ok.mpr ⟨_, hfirst, bind_eq_ok.mpr ⟨_, ih hrest, rfl⟩⟩

/-- Routines keep the names of a table in order. -/
theorem inOrder_emitDefinitions
    (h : emitDefinitions constants t ds = .ok (rs, t'))
    (hnames : ∀ d ∈ ds, Ident.Plain d.name) (ht : t.Distinct)
    (hnamed : t.Named) : t'.Distinct ∧ t'.Named := by
  induction ds generalizing t rs with
  | nil =>
    cases h
    exact ⟨ht, hnamed⟩
  | cons first ds ih =>
    obtain ⟨hname, hnames⟩ := List.forall_mem_cons.mp hnames
    obtain ⟨⟨r', t₂⟩, hfirst, h⟩ := bind_eq_ok.mp h
    obtain ⟨⟨rs', t₃⟩, hrest, h⟩ := bind_eq_ok.mp h
    cases pure_eq_ok.mp h
    obtain ⟨ht₂, hnamed₂⟩ := inOrder_emitRoutine hfirst hname ht hnamed
    exact ih hrest hnames ht₂ hnamed₂

/-- A text keeps its name while routines are emitted, and it has one after one
of them has asked for it. -/
theorem labelOf?_emitDefinitions
    (h : emitDefinitions constants t ds = .ok (rs, t')) (text : String) :
    (∀ label, t.labelOf? text = some label → t'.labelOf? text = some label)
      ∧ ((t'.labelOf? text).isSome ↔ (t.labelOf? text).isSome
        ∨ .constant text ∈ ds.flatMap Definition.requests) := by
  induction ds generalizing t rs with
  | nil =>
    cases h
    exact ⟨fun _ h => h, by simp⟩
  | cons first ds ih =>
    obtain ⟨⟨r', t₂⟩, hfirst, h⟩ := bind_eq_ok.mp h
    obtain ⟨⟨rs', t₃⟩, hrest, h⟩ := bind_eq_ok.mp h
    cases pure_eq_ok.mp h
    obtain ⟨hkeeps, hsome⟩ := labelOf?_emitRoutine hfirst text
    obtain ⟨hkeeps', hsome'⟩ := ih hrest
    refine ⟨fun label hlabel => hkeeps' label (hkeeps label hlabel), ?_⟩
    rw [hsome', hsome, List.flatMap_cons, List.mem_append, or_assoc]

/-- **Each routine was emitted for its body**, if no two bodies have one name
and their scopes are those of the table before. -/
theorem emittedAs_of_emitDefinitions {before : SymbolTable}
    (h : emitDefinitions constants t ds = .ok (rs, t'))
    (hnodup : (ds.map Definition.name).Nodup)
    (hscopes : ∀ d ∈ ds, ∀ id, t.scopeOf? d.name = some id →
      before.scopeOf? d.name = some id ∧ t.scope id = before.scope id) :
    ∀ d ∈ ds, ∃ r ∈ rs, d.EmittedAs constants before t' r := by
  induction ds generalizing t rs with
  | nil => exact nofun
  | cons first ds ih =>
    obtain ⟨hname, hnodup⟩ := List.nodup_cons.mp hnodup
    obtain ⟨hscope, hscopes⟩ := List.forall_mem_cons.mp hscopes
    obtain ⟨⟨r', t₂⟩, hfirst, h⟩ := bind_eq_ok.mp h
    obtain ⟨⟨rs', t₃⟩, hrest, h⟩ := bind_eq_ok.mp h
    cases pure_eq_ok.mp h
    have hemits := emits_of_emitRoutine hfirst
    have hlater := emitsAll_of_emitDefinitions hrest
    refine List.forall_mem_cons.mpr
      ⟨⟨r', List.mem_cons_self .., ?_⟩, fun d hd => ?_⟩
    · have hkept := hlater.scope_of_notMem
        ((hemits.scopeOf?_after first.name).trans hemits.scopeOf?_eq) hname
      obtain ⟨id, t₁, hid, hdeclare, rfl, rfl⟩ := emitRoutine_eq_ok hfirst
      obtain ⟨-, rfl⟩ := declare_global_eq_ok hdeclare
      obtain ⟨hbefore, hsame⟩ := hscope id hid
      refine ⟨rfl, hbefore, _, hemits.isBody.1, ?_, rfl, hkept,
        fun text => (labelOf?_emitDefinitions hrest text).1⟩
      rw [scope_modify_of_ne _ (ne_global_of_scopeOf? hid).symm]
      exact hsame
    · obtain ⟨r, hr, hd⟩ := ih hrest hnodup (fun d hd id hid => by
        -- the scopes of the other bodies have not changed
        rw [hemits.scopeOf?_after] at hid
        have hne : d.name ≠ first.name := fun heq =>
          hname (heq ▸ List.mem_map_of_mem hd)
        rw [hemits.scope_of_ne hid hne]
        exact hscopes d hd id hid) d hd
      exact ⟨r, List.mem_cons_of_mem r' hr, hd⟩

end Definition

/-! ## Plain names -/

theorem Program.HasPlainNames.params {α : Type} {p : Program α}
    (h : p.HasPlainNames) {d : Definition α} (hd : d ∈ p.bodies) :
    ∀ b ∈ d.params, Ident.Plain b.1 := by
  rcases List.mem_append.mp hd with hd | hd
  · exact h.parameters d hd
  · cases List.mem_singleton.mp hd
    exact nofun

theorem Program.HasPlainNames.context {α : Type} [Note α] {p : Program α}
    (h : p.HasPlainNames) {d : Definition α} (hd : d ∈ p.bodies)
    {sigs : Signatures} {expected : Option Ty} {Γ : Context}
    {returns : Returns} (heffect : Stmt.HaveEffect sigs expected d.params
      .never d.body.stmts Γ returns) : ∀ b ∈ Γ, Ident.Plain b.1 :=
  fun b hb => (heffect.context.2.2 b hb).elim (h.params hd b)
    (h.introduced d hd b.1)

/-- A scope that holds a context with plain names has plain names. -/
theorem Scope.Holds.plain {scope : Scope} {Γ : Context} (h : scope.Holds Γ)
    (hΓ : ∀ b ∈ Γ, Ident.Plain b.1) :
    ∀ s ∈ scope.newestFirst, Ident.Plain s.name := by
  intro s hs
  -- what the name means is a variable of the context
  cases hfind : scope.find? s.name with
  | none =>
    exact absurd (beq_self_eq_true s.name)
      (List.find?_eq_none.mp hfind s hs)
  | some s' =>
    obtain ⟨ty, hty⟩ := Option.isSome_iff_exists.mp
      (h.places s' (Scope.find?_eq_some hfind).1).2
    exact hΓ _ ((h.mem s.name ty).mpr ⟨s', hfind, hty⟩)

/-- A scope in which all names stay is the same. -/
theorem Scope.rename_eq_self {ν : Names} {scope : Scope}
    (howner : ν.routine scope.owner = scope.owner)
    (h : ∀ s ∈ scope.newestFirst, ν.slot s.name = s.name
      ∧ ν.routine s.name = s.name) : scope.rename ν = scope := by
  have hsymbols : scope.newestFirst.map (·.rename ν) = scope.newestFirst := by
    refine (List.map_congr_left fun s hs => ?_).trans (List.map_id _)
    obtain ⟨hslot, hroutine⟩ := h s hs
    rw [Symbol.rename, hslot, hroutine, ite_self]
    rfl
  rw [Scope.rename, howner, hsymbols]

namespace TypedProgram

variable {typed : TypedProgram} {p : Program Span}

/-- **The scopes of a checked program have plain names** if the program has.
-/
theorem plain_of_check (hcheck : p.check = .ok typed)
    (hplain : typed.program.HasPlainNames) {id : ScopeId}
    (hid : id ≠ .global) :
    ∀ s ∈ (typed.symbols.scope id).newestFirst, Ident.Plain s.name := by
  cases id with
  | global => exact absurd rfl hid
  | nested i =>
    rw [SymbolTable.scope]
    cases hscope : typed.symbols.nested[i]? with
    | none => exact fun s hs => absurd hs (List.not_mem_nil)
    | some scope =>
      obtain ⟨d, hd, hfills⟩ := (Program.fills_of_check hcheck).2 scope
        (List.mem_of_getElem? hscope)
      obtain ⟨_, Γ, _, -, heffect, hholds⟩ := hfills.holds
      exact hholds.plain (hplain.context hd heffect)

/-! ## Programs -/

/-- **The requests of a program**: those for the texts that any code may
print, and those of the bodies. -/
def requests (typed : TypedProgram) : List Request :=
  Constants.requests ++ typed.program.bodies.flatMap Definition.requests

/-- **What emission makes of a program**, and how it leaves the table. -/
structure EmittedAs (typed : TypedProgram) (a : Assembly) : Prop where
  /-- A routine was emitted for each body. -/
  bodies : ∀ d ∈ typed.program.bodies, ∃ r ∈ a.bodies,
    d.EmittedAs (Emit.constants.run typed.symbols).1 typed.symbols a.symbols r
  /-- The routines have the names of the bodies. -/
  names : a.bodies.map Routine.name = typed.program.bodies.map Definition.name
  /-- The scopes belong to the same bodies. -/
  owners : ∀ owner, a.symbols.scopeOf? owner = typed.symbols.scopeOf? owner
  /-- The names that were made up are different. -/
  distinct : a.symbols.Distinct
  /-- The names of texts are in order. -/
  named : a.symbols.Named
  /-- The texts that have names are those that were asked for. -/
  texts : ∀ text, (a.symbols.labelOf? text).isSome
    ↔ .constant text ∈ typed.requests
  /-- The texts that any code may print keep their names. -/
  constants : ∀ text label,
    (Emit.constants.run typed.symbols).2.labelOf? text = some label →
      a.symbols.labelOf? text = some label

/-- All routines are emitted one after the other, the main one last. -/
theorem emit_bodies {a : Assembly} (h : typed.emit = .ok a) :
    emitDefinitions (Emit.constants.run typed.symbols).1
      (Emit.constants.run typed.symbols).2 typed.program.bodies
        = .ok (a.bodies, a.symbols) := by
  unfold emit at h
  generalize Emit.constants.run typed.symbols = start at h
  obtain ⟨⟨rs, t₁⟩, hdefinitions, h⟩ := bind_eq_ok.mp h
  obtain ⟨⟨main, t₂⟩, hmain, h⟩ := bind_eq_ok.mp h
  cases pure_eq_ok.mp h
  exact Definition.emitDefinitions_concat hdefinitions hmain

theorem run_constants_snd (t : SymbolTable) (id : ScopeId) :
    (Emit.constants.run t).2 = t.serve id Constants.requests :=
  (Emit.mirrors_constants .same id id).run_snd t

/-- **Emission keeps its account of a checked program** whose names are plain.
-/
theorem emittedAs_of_emit (hcheck : p.check = .ok typed)
    (hplain : typed.program.HasPlainNames) {a : Assembly}
    (h : typed.emit = .ok a) : typed.EmittedAs a := by
  have hsound := Program.check_sound hcheck
  have hbodies := emit_bodies h
  have hgrows := (emits_constants typed.symbols).grows
  have hserve := run_constants_snd typed.symbols (.nested 0)
  have hnested : ScopeId.nested 0 ≠ .global := nofun
  -- before all emission no name has been made up and no text has a name
  have hnone (text : String) : typed.symbols.labelOf? text = none := by
    rw [labelOf?, hsound.global]
    rfl
  have hmade (id : ScopeId) : typed.symbols.madeIn id = [] := by
    by_cases hid : id = .global
    · subst hid
      refine madeIn_eq_nil fun s hs => ?_
      rw [show typed.symbols.scope .global = .empty "<global>" from
        hsound.global] at hs
      cases hs
    · exact madeIn_eq_nil (plain_of_check hcheck hplain hid)
  have hdistinct : typed.symbols.Distinct := by
    constructor <;> simp [hmade]
  have hnamed : typed.symbols.Named := by
    refine ⟨tidy_of_global_eq hsound.global, ?_, ?_⟩ <;>
      simp [hsound.global, Scope.empty]
  obtain ⟨hfinal, hfinalNamed⟩ := Definition.inOrder_emitDefinitions hbodies
    hplain.bodies (hdistinct.grows (hgrows .global) trivial)
    (hserve ▸ hnamed.serve hnested _)
  have hkept := fun text => Definition.labelOf?_emitDefinitions hbodies text
  have hemits := emitsAll_of_emitDefinitions hbodies
  refine ⟨?_, hemits.names_eq, fun owner => ?_, hfinal, hfinalNamed,
    fun text => ?_, fun text => (hkept text).1⟩
  · refine Definition.emittedAs_of_emitDefinitions hbodies
      hsound.wellTyped.nodup_bodies fun d _ id hid => ?_
    rw [(hgrows .global).scopeOf?] at hid
    have hglobal := ne_global_of_scopeOf? hid
    exact ⟨hid, (hgrows .global).scope_of_ne hglobal.symm hglobal⟩
  · rw [hemits.scopeOf?_after, (hgrows .global).scopeOf?]
  · have hasked := (labelOf?_serve (t := typed.symbols) hnested
      Constants.requests text).2
    rw [(hkept text).2, hserve, hasked, hnone, requests, List.mem_append]
    simp

end TypedProgram

end Primer
