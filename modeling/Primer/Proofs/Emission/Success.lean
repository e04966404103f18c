import Primer.Proofs.Machine.Control
import Primer.Proofs.Typing.Scopes

/-!
# Emission succeeds on checked programs

There are three ways in which emission can refuse a tree, and the checker
closes each of them. It notes on no operand of a conversion the none type
(`Expr.HasType.unconvertible?_eq_none`); it leaves a scope under the name of
every body; and it puts nothing into the global scope, where the name of a
body has to be new.

The last one needs more than that, since emission itself fills the global
scope: with the names of the texts, all of which begin with a point, and with
the names of the bodies that came before. `SymbolTable.Entries` is what holds
of the global scope all the while. So a definition whose name begins with no
point, and that has its name for itself, finds the name free.

An operator is no fourth way: `Expr.emit` has no error, since the syntax sorts
the operators. That emission which asks them what they are when it comes to
them refuses none of them either is shown in `Proofs/Indexed/Success`.
-/

namespace Primer

open SymbolTable

/-! ## Conversions -/

namespace Expr

variable {sigs : Signatures} {Γ : Context}

mutual

/-- **A typed expression converts no none value.** -/
theorem HasType.unconvertible?_eq_none {e : Expr Judged} {ty : Ty}
    (h : e.HasType sigs Γ ty) : e.unconvertible? = none := by
  match h with
  | .lit _ | .var _ _ => rfl
  | .arith _ hlhs hrhs | .compare _ hlhs hrhs | .logic _ hlhs hrhs =>
    rw [unconvertible?, hlhs.unconvertible?_eq_none,
      hrhs.unconvertible?_eq_none]
    rfl
  | .not _ hoperand | .input _ hoperand =>
    rw [unconvertible?]
    exact hoperand.unconvertible?_eq_none
  | .convert _ hty hoperand =>
    rw [unconvertible?, hoperand.ty_eq, if_neg (isConvertible_iff.mp hty)]
    exact hoperand.unconvertible?_eq_none
  | .call _ _ hargs =>
    rw [unconvertible?]
    exact hargs.anyUnconvertible?_eq_none

/-- Typed expressions convert no none value. -/
theorem HaveTypes.anyUnconvertible?_eq_none {es : List (Expr Judged)}
    {tys : List Ty} (h : HaveTypes sigs Γ es tys) :
    anyUnconvertible? es = none := by
  match h with
  | .nil => rfl
  | .cons he hes =>
    rw [anyUnconvertible?, he.unconvertible?_eq_none,
      hes.anyUnconvertible?_eq_none]
    rfl

end

end Expr

namespace Stmt

variable {sigs : Signatures} {expected : Option Ty}

mutual

/-- **A typed statement converts no none value.** -/
theorem HasEffect.unconvertible?_eq_none {stmt : Stmt Judged}
    {Γ Γ' : Context} {returns : Returns}
    (h : stmt.HasEffect sigs expected Γ Γ' returns) :
    stmt.unconvertible? = none := by
  match h with
  | .pass | .retUnit _ => rfl
  | .introduce hvalue _ | .assign _ hvalue | .update _ hvalue
  | .ret _ hvalue =>
    rw [unconvertible?]
    exact hvalue.unconvertible?_eq_none
  | .print hargs | .call _ hargs _ =>
    rw [unconvertible?]
    exact hargs.anyUnconvertible?_eq_none
  | .ifElse hcond hthen helse _ =>
    rw [unconvertible?, hcond.unconvertible?_eq_none,
      hthen.anyUnconvertible?_eq_none, helse.anyUnconvertible?_eq_none]
    rfl
  | .whileLoop hcond hbody _ =>
    rw [unconvertible?, hcond.unconvertible?_eq_none,
      hbody.anyUnconvertible?_eq_none]
    rfl

/-- Typed statements convert no none value. -/
theorem HaveEffect.anyUnconvertible?_eq_none {stmts : List (Stmt Judged)}
    {Γ Γ' : Context} {before returns : Returns}
    (h : HaveEffect sigs expected Γ before stmts Γ' returns) :
    anyUnconvertible? stmts = none := by
  match h with
  | .nil => rfl
  | .cons hstmt _ hstmts =>
    rw [anyUnconvertible?, hstmt.unconvertible?_eq_none,
      hstmts.anyUnconvertible?_eq_none]
    rfl

end

end Stmt

/-! ## The global scope -/

namespace SymbolTable

/-- **The entries of a table**: a global name that begins with no point is
one of these names. -/
def Entries (t : SymbolTable) (names : List Ident) : Prop :=
  ∀ s ∈ t.global.newestFirst,
    Ident.BeginsWith s.name '.' ∨ s.name ∈ names

variable {t t' : SymbolTable} {names : List Ident}

/-- A name that is no entry and begins with no point is free. -/
theorem Entries.find?_eq_none (h : t.Entries names) {name : Ident}
    (hpoint : ¬ name.BeginsWith '.') (hnew : name ∉ names) :
    t.global.find? name = none := by
  cases hfind : t.global.find? name with
  | none => rfl
  | some s =>
    obtain ⟨hs, rfl⟩ := Scope.find?_eq_some hfind
    exact ((h s hs).elim hpoint hnew).elim

/-- Emitting the code of a body adds no entry. -/
theorem Entries.grows (h : t.Entries names) {id : ScopeId}
    (hid : id ≠ .global) (hg : Grows id t t') : t'.Entries names := by
  induction hg with
  | refl => exact h
  | @step t' stem id' symbol _ ha ih =>
    intro s hs
    -- a text has a name with a point, and all else goes to another scope
    have hpush : id' = .global → Ident.BeginsWith
        (symbol (stem ++ Text.Decimal.ofNat t'.counter)).name '.' := by
      intro hglobal
      cases ha with
      | temporary => exact absurd hglobal hid
      | label => exact absurd hglobal hid
      | constant text => exact Ident.beginsWith_point "str" _
    cases id' with
    | global =>
      rcases List.mem_cons.mp hs with rfl | hs
      · exact .inl (hpush rfl)
      · exact ih s hs
    | nested i => exact ih s hs

theorem Entries.push (h : t.Entries names) (name : Ident) :
    (t.modify .global (·.push (.label name))).Entries (name :: names) := by
  intro s hs
  rcases List.mem_cons.mp hs with rfl | hs
  · exact .inr (List.mem_cons_self ..)
  · exact (h s hs).imp_right (List.mem_cons_of_mem name)

end SymbolTable

/-! ## Routines -/

/-- **What emission needs of a body**: a scope, a name that is not that of a
text, and no conversion of the none value. -/
structure Definition.Ready (t : SymbolTable) (d : Definition Judged) :
    Prop where
  /-- The body has a scope. -/
  scope : ∃ id, t.scopeOf? d.name = some id
  /-- Its name begins with no point. -/
  point : ¬ d.name.BeginsWith '.'
  /-- It converts no none value. -/
  converts : Stmt.anyUnconvertible? d.body.stmts = none

/-- **A body that is ready has a routine**, if its name is free. -/
theorem Definition.Ready.exists_emitRoutine {t : SymbolTable}
    {d : Definition Judged} (h : d.Ready t) {names : List Ident}
    (hentries : t.Entries names) (hnew : d.name ∉ names)
    (constants : Constants) :
    ∃ r t', emitRoutine constants t d.name d.params d.ret d.body = .ok (r, t')
      ∧ t'.Entries (d.name :: names)
      ∧ ∀ owner, t'.scopeOf? owner = t.scopeOf? owner := by
  obtain ⟨id, hscope⟩ := h.scope
  have hfree := hentries.find?_eq_none h.point hnew
  have hdeclare : t.declare .global (.label d.name)
      = .ok (t.modify .global (·.push (.label d.name))) := by
    rw [declare, show t.scope .global = t.global from rfl,
      Scope.declare_of_find?_eq_none hfree]
    rfl
  obtain ⟨r, t', hemit⟩ : ∃ r t',
      emitRoutine constants t d.name d.params d.ret d.body = .ok (r, t') := by
    unfold emitRoutine
    simp only [hscope, hdeclare, h.converts]
    exact ⟨_, _, rfl⟩
  have hemits := emits_of_emitRoutine hemit
  refine ⟨r, t', hemit, ?_, hemits.scopeOf?_after⟩
  exact (hentries.push d.name).grows hemits.isBody.2 hemits.takes.grows

/-- Bodies that are ready have routines, if their names are free and
different. -/
theorem Definition.Ready.exists_emitDefinitions {t : SymbolTable}
    {ds : List (Definition Judged)} (h : ∀ d ∈ ds, d.Ready t)
    {names : List Ident} (hentries : t.Entries names)
    (hnew : (ds.map Definition.name).Disjoint names)
    (hnodup : (ds.map Definition.name).Nodup) (constants : Constants) :
    ∃ rs t', emitDefinitions constants t ds = .ok (rs, t')
      ∧ t'.Entries ((ds.map Definition.name).reverse ++ names)
      ∧ ∀ owner, t'.scopeOf? owner = t.scopeOf? owner := by
  induction ds generalizing t names with
  | nil => exact ⟨[], t, rfl, hentries, fun _ => rfl⟩
  | cons d ds ih =>
    obtain ⟨hd, hds⟩ := List.forall_mem_cons.mp h
    obtain ⟨hname, hnodup⟩ := List.nodup_cons.mp hnodup
    rw [List.map_cons, List.disjoint_cons_left] at hnew
    obtain ⟨r, t₁, hfirst, hentries₁, hscopes₁⟩ :=
      hd.exists_emitRoutine hentries hnew.1 constants
    have hready : ∀ d' ∈ ds, d'.Ready t₁ := fun d' hd' =>
      ⟨by rw [hscopes₁]; exact (hds d' hd').scope, (hds d' hd').point,
        (hds d' hd').converts⟩
    obtain ⟨rs, t₂, hrest, hentries₂, hscopes₂⟩ :=
      ih hready hentries₁ (List.disjoint_cons_right.mpr ⟨hname, hnew.2⟩)
        hnodup
    refine ⟨r :: rs, t₂, ?_, ?_, fun owner => ?_⟩
    · exact bind_eq_ok.mpr ⟨_, hfirst, bind_eq_ok.mpr ⟨_, hrest, rfl⟩⟩
    · rw [List.map_cons, List.reverse_cons, List.append_assoc]
      exact hentries₂
    · rw [hscopes₂, hscopes₁]

/-! ## Programs -/

/-- **The bodies of a checked program are ready.** -/
theorem Program.ready_of_check {p : Program Span} {typed : TypedProgram}
    (h : p.check = .ok typed)
    (hnames : ∀ d ∈ p.definitions, ¬ d.name.BeginsWith '.') :
    ∀ d ∈ typed.program.bodies, d.Ready typed.symbols := by
  intro d hd
  obtain ⟨id, hid, hfills⟩ := exists_fills_of_check h hd
  obtain ⟨_, _, _, -, heffect, -⟩ := hfills.holds
  exact ⟨⟨id, hid⟩, (check_sound h).not_beginsWith hnames d hd,
    heffect.anyUnconvertible?_eq_none⟩

/-- Code is emitted for a checked program. -/
theorem Program.exists_emit_of_check {p : Program Span}
    {typed : TypedProgram} (h : p.check = .ok typed)
    (hnames : ∀ d ∈ p.definitions, ¬ d.name.BeginsWith '.') :
    ∃ a, typed.emit = .ok a := by
  have hready := ready_of_check h hnames
  have hsound := check_sound h
  have hnodup := hsound.wellTyped.nodup_bodies
  have hconstants := emits_constants typed.symbols
  unfold TypedProgram.emit
  generalize Emit.constants.run typed.symbols = start at hconstants
  obtain ⟨constants, t⟩ := start
  -- nothing is global yet but the names of the texts
  have hbody : ScopeId.nested 0 ≠ .global := nofun
  have hgrows : Grows (.nested 0) typed.symbols t := hconstants.grows _
  have hempty : typed.symbols.Entries [] := by
    simp [Entries, hsound.global, Scope.empty]
  have hentries : t.Entries [] := hempty.grows hbody hgrows
  have hready : ∀ d ∈ typed.program.bodies, d.Ready t := fun d hd =>
    ⟨by rw [hgrows.scopeOf?]; exact (hready d hd).scope, (hready d hd).point,
      (hready d hd).converts⟩
  unfold bodies at hready hnodup
  rw [List.map_append, List.nodup_append] at hnodup
  obtain ⟨hdefinitions, hmain⟩ := List.forall_mem_append.mp hready
  obtain ⟨rs, t₁, hrs, hentries₁, hscopes⟩ :=
    Definition.Ready.exists_emitDefinitions hdefinitions hentries
      (List.disjoint_nil_right _) hnodup.1 constants
  have hscript := List.forall_mem_singleton.mp hmain
  have hscript : typed.program.script.Ready t₁ :=
    ⟨by rw [hscopes]; exact hscript.scope, hscript.point, hscript.converts⟩
  obtain ⟨r, t₂, hr, -, -⟩ :=
    hscript.exists_emitRoutine hentries₁ (fun hmem => by
      rw [List.append_nil, List.mem_reverse] at hmem
      exact hnodup.2.2 _ hmem _ (List.mem_singleton_self _) rfl) constants
  exact ⟨_, bind_eq_ok.mpr ⟨_, hrs, bind_eq_ok.mpr ⟨_, hr, rfl⟩⟩⟩

end Primer
