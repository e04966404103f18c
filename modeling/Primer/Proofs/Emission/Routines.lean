import Primer.Compile
import Primer.Proofs.Emission.Labels
import Primer.Proofs.Typing.Decision

/-!
# The routines of a program

The code of a body stands between an entry and an exit, and the routines of a
program are emitted one after the other over one table. This module says both
by rules, as `Primer.Proofs.Emission.Rules` does for statements, and derives
what the routines of a program have to do with each other: the labels of a
routine after its entry are the labels of its scope
(`Routine.Emits.takes`), and no two routines of a program have a label
in common, since the scopes of their bodies are different and no number is
given out twice (`Definition.EmitsAll.nodup`).
-/

namespace Primer

open SymbolTable

theorem Expr.HasType.eq_bool {sigs : Signatures} {Γ : Context}
    {e : Expr Judged} {ty : Ty} (h : e.HasType sigs Γ ty)
    (hbranched : e.isBranched = true) : ty = .bool := by
  cases h with
  | compare | logic | not => rfl
  | lit | var | arith | input | convert | call => cases hbranched

/-- The labels of a routine after its entry. -/
def Routine.innerLabels (r : Routine) : List Label := r.code.labels.tail

/-- **The rule for the routine of a body.** -/
inductive Routine.Emits (constants : Constants) (name : Ident)
    (params : List (Slot × Ty)) (ret : Ty) (body : List (Stmt Judged)) :
    SymbolTable → Routine → SymbolTable → Prop
  /-- The entry, the code of the statements, the exit. -/
  | mk {t t₁ t₂ t₃ : SymbolTable} {scope : ScopeId} {exit : Label}
      {code : Code} (hscope : t.scopeOf? name = some scope)
      (hentry : t.declare .global (.label name) = .ok t₁)
      (hexit : t₁.freshLabel scope (some "done") = (exit, t₂))
      (hbody : Stmt.EmitsAll ⟨scope, exit, constants⟩ body t₂ code t₃) :
    Emits constants name params ret body t
      ⟨⟨name, params, ret, scope⟩,
        .label name :: .enter :: code ++ [.label exit, .leave]⟩ t₃

/-- The rule for the routine of a definition. -/
abbrev Definition.Emits (constants : Constants) (d : Definition Judged) :
    SymbolTable → Routine → SymbolTable → Prop :=
  Routine.Emits constants d.name d.params d.ret d.body.stmts

/-- **The rules for the routines of definitions**, one after the other. -/
inductive Definition.EmitsAll (constants : Constants) :
    List (Definition Judged) → SymbolTable → List Routine → SymbolTable → Prop
  /-- No definition. -/
  | nil {t : SymbolTable} : EmitsAll constants [] t [] t
  /-- One definition, then the others. -/
  | cons {d : Definition Judged} {ds : List (Definition Judged)}
      {r : Routine} {rs : List Routine} {t t₁ t₂ : SymbolTable}
      (hd : d.Emits constants t r t₁) (hds : EmitsAll constants ds t₁ rs t₂) :
    EmitsAll constants (d :: ds) t (r :: rs) t₂

/-- **The main script as a definition**, though nothing can call it. -/
def Program.script {α : Type} (p : Program α) : Definition α :=
  ⟨entryPoint, [], .unit, p.main, .origin⟩

/-- All that code is emitted for: the definitions and the main script. -/
def Program.bodies {α : Type} (p : Program α) : List (Definition α) :=
  p.definitions ++ [p.script]

theorem Program.bodies_erase (p : Program Judged) :
    p.erase.bodies = p.bodies.map Definition.erase := by
  unfold bodies
  rw [List.map_append]
  rfl

/-- All routines of an assembled program, the main one last. -/
def Assembly.bodies (a : Assembly) : List Routine := a.routines ++ [a.main]

/-- **The rule for the texts that any code may print.** -/
inductive Constants.Emits (c : Constants) : SymbolTable → SymbolTable → Prop
  /-- Five texts, one after the other. -/
  | mk {t t₁ t₂ t₃ t₄ t₅ : SymbolTable}
      (hnewline : t.intern "\n" = (c.newline, t₁))
      (hspace : t₁.intern " " = (c.space, t₂))
      (hyes : t₂.intern "True" = (c.yes, t₃))
      (hno : t₃.intern "False" = (c.no, t₄))
      (hunit : t₄.intern "None" = (c.unit, t₅)) : Emits c t t₅

/-- **The rule for the code of a program**: the texts that any code may print
are interned, and then the routines are emitted. -/
inductive TypedProgram.Emits (p : TypedProgram) : Assembly → Prop
  /-- The texts, then the routines. -/
  | mk {constants : Constants} {t : SymbolTable} {a : Assembly}
      (hconstants : constants.Emits p.symbols t)
      (hbodies : Definition.EmitsAll constants p.program.bodies t a.bodies
        a.symbols) :
    Emits p a

/-! ## The emitter keeps to the rules -/

/-- The emitter keeps to the rule for a routine. -/
theorem emits_of_emitRoutine {constants : Constants} {t t' : SymbolTable}
    {name : Ident} {params : List (Slot × Ty)} {ret : Ty}
    {body : Block (Stmt Judged)} {r : Routine}
    (h : emitRoutine constants t name params ret body = .ok (r, t')) :
    Routine.Emits constants name params ret body.stmts t r t' := by
  unfold emitRoutine at h
  split at h
  · cases h
  · next scope hscope =>
    split at h
    · cases h
    · next t₁ hentry =>
      split at h
      · cases h
      · cases h
        exact .mk hscope hentry rfl (Stmt.emitsAll _ body.stmts _)

/-- The emitter keeps to the rules for definitions. -/
theorem emitsAll_of_emitDefinitions {constants : Constants}
    {ds : List (Definition Judged)} {t t' : SymbolTable}
    {routines : List Routine}
    (h : emitDefinitions constants t ds = .ok (routines, t')) :
    Definition.EmitsAll constants ds t routines t' := by
  induction ds generalizing t routines with
  | nil =>
    cases h
    exact .nil
  | cons d ds ih =>
    obtain ⟨⟨r, t₁⟩, hd, h⟩ := bind_eq_ok.mp h
    obtain ⟨⟨rs, t₂⟩, hds, h⟩ := bind_eq_ok.mp h
    cases pure_eq_ok.mp h
    exact .cons (emits_of_emitRoutine hd) (ih hds)

theorem Emit.run_bind {β γ : Type} (x : Emit β) (k : β → Emit γ)
    (t : SymbolTable) : (x >>= k).run t = (k (x.run t).1).run (x.run t).2 := rfl

theorem Emit.run_constant (text : String) (t : SymbolTable) :
    (constant text).run t = t.intern text := rfl

/-- The emitter keeps to the rule for the texts that any code may print. -/
theorem emits_constants (t : SymbolTable) :
    (Emit.constants.run t).1.Emits t (Emit.constants.run t).2 := by
  unfold Emit.constants
  simp only [Emit.run_bind, Emit.run_constant]
  -- the tables get names, or each would be computed from the one before
  generalize hnewline : t.intern "\n" = newline
  generalize hspace : newline.2.intern " " = space
  generalize hyes : space.2.intern "True" = yes
  generalize hno : yes.2.intern "False" = no
  generalize hunit : no.2.intern "None" = unit
  exact .mk hnewline hspace hyes hno hunit

theorem Definition.EmitsAll.concat {constants : Constants}
    {ds : List (Definition Judged)} {d : Definition Judged}
    {t t₁ t₂ : SymbolTable} {rs : List Routine} {r : Routine}
    (h : Definition.EmitsAll constants ds t rs t₁)
    (hd : d.Emits constants t₁ r t₂) :
    Definition.EmitsAll constants (ds ++ [d]) t (rs ++ [r]) t₂ := by
  induction h with
  | nil => exact .cons hd .nil
  | cons hfirst _ ih => exact .cons hfirst (ih hd)

/-- **The emitter keeps to the rules**, for a program. -/
theorem TypedProgram.emits_of_emit {p : TypedProgram} {a : Assembly}
    (h : p.emit = .ok a) : p.Emits a := by
  unfold emit at h
  have hconstants := emits_constants p.symbols
  generalize Emit.constants.run p.symbols = start at h hconstants
  obtain ⟨⟨routines, t₁⟩, hdefinitions, h⟩ := bind_eq_ok.mp h
  obtain ⟨⟨main, t₂⟩, hmain, h⟩ := bind_eq_ok.mp h
  cases pure_eq_ok.mp h
  have hbodies := emitsAll_of_emitDefinitions hdefinitions
  exact .mk hconstants (hbodies.concat (emits_of_emitRoutine hmain))

/-- A program is compiled if it passes the check and code is emitted for it.
-/
theorem Program.compile_eq_ok {p : Program Span} {a : Assembly} :
    p.compile = .ok a
      ↔ ∃ typed, p.check = .ok typed ∧ typed.emit = .ok a := by
  unfold compile
  cases hcheck : p.check with
  | error e => simp
  | ok typed =>
    simp only [Except.ok.injEq, exists_eq_left']
    cases typed.emit with
    | error e => constructor <;> (intro h; cases h)
    | ok b => constructor <;> (intro h; cases h; rfl)

/-! ## One routine -/

theorem SymbolTable.declare_global_eq_ok {t t' : SymbolTable}
    {symbol : Symbol} (h : t.declare .global symbol = .ok t') :
    t.global.find? symbol.name = none
      ∧ t' = t.modify .global (·.push symbol) := by
  obtain ⟨scope, hscope, h⟩ := bind_eq_ok.mp h
  cases pure_eq_ok.mp h
  obtain ⟨hnew, rfl⟩ := Scope.declare_eq_ok hscope
  exact ⟨hnew, rfl⟩

/-- **The shape of a routine**: its entry, the start, a body, its exit, the
end. -/
structure Routine.HasShape (r : Routine) (body : Code) (exit : Label) :
    Prop where
  /-- These five follow each other. -/
  code : r.code = .label r.name :: .enter :: body ++ [.label exit, .leave]
  /-- The body leaves for the exit. -/
  inner : body.Inner [exit]

/-- The labels of a routine are that of its name, those of its body and its
exit. -/
theorem Routine.HasShape.labels_eq {r : Routine} {body : Code} {exit : Label}
    (h : r.HasShape body exit) :
    r.code.labels = r.name :: r.innerLabels
      ∧ r.innerLabels = body.labels ++ [exit] := by
  unfold innerLabels
  rw [h.code]
  simp [Instr.label?]

/-- Jumps of a routine go to labels of its own after its entry. -/
theorem Routine.HasShape.targets {r : Routine} {body : Code} {exit : Label}
    (h : r.HasShape body exit) : r.code.targets ⊆ r.innerLabels := by
  intro l hl
  rw [h.code] at hl
  rw [h.labels_eq.2, List.mem_append]
  refine h.inner.targets l ?_
  simpa [Instr.targets] using hl

namespace Routine.Emits

variable {constants : Constants} {name : Ident} {params : List (Slot × Ty)}
  {ret : Ty} {body : List (Stmt Judged)} {t t' : SymbolTable} {r : Routine}

theorem name_eq (h : Routine.Emits constants name params ret body t r t') :
    r.name = name := by
  cases h
  rfl

theorem scopeOf?_eq
    (h : Routine.Emits constants name params ret body t r t') :
    t.scopeOf? name = some r.prototype.scope := by
  cases h with
  | mk hscope => exact hscope

theorem exists_hasShape
    (h : Routine.Emits constants name params ret body t r t') :
    ∃ code exit, r.HasShape code exit := by
  cases h with
  | mk _ _ _ hbody => exact ⟨_, _, rfl, hbody.inner⟩

/-- **The labels of a routine after its entry are those that were taken** once
the name of the routine had been declared. -/
theorem takes (h : Routine.Emits constants name params ret body t r t') :
    Takes r.prototype.scope (t.modify .global (·.push (.label name))) t'
      r.innerLabels := by
  cases h with
  | @mk _ _ _ scope exit code hscope hentry hexit hbody =>
    obtain ⟨-, rfl⟩ := declare_global_eq_ok hentry
    have hshape : Routine.HasShape ⟨⟨name, params, ret, scope⟩,
        .label name :: .enter :: code ++ [.label exit, .leave]⟩ code exit :=
      ⟨rfl, hbody.inner⟩
    rw [hshape.labels_eq.2]
    refine ((Takes.label (by simp) hexit).trans hbody.takes).congr fun l => ?_
    rw [List.count_append, List.count_append, Nat.add_comm]

theorem counter_le
    (h : Routine.Emits constants name params ret body t r t') :
    t.counter ≤ t'.counter := h.takes.grows.counter_le

theorem scopeOf?_after
    (h : Routine.Emits constants name params ret body t r t')
    (owner : String) : t'.scopeOf? owner = t.scopeOf? owner :=
  h.takes.grows.scopeOf? owner

theorem scope_of_ne
    (h : Routine.Emits constants name params ret body t r t') {id : ScopeId}
    {owner : Ident} (hid : t.scopeOf? owner = some id) (hne : owner ≠ name) :
    t'.scope id = t.scope id := by
  have hglobal := ne_global_of_scopeOf? hid
  rw [h.takes.grows.scope_of_ne ?_ hglobal, scope_modify_of_ne _ hglobal.symm]
  intro heq
  exact hne (scopeOf?_inj hid (heq ▸ h.scopeOf?_eq))

theorem isBody (h : Routine.Emits constants name params ret body t r t') :
    (t.modify .global (·.push (.label name))).IsBody r.prototype.scope := by
  have hhas : t.Has r.prototype.scope := has_of_scopeOf? h.scopeOf?_eq
  exact ⟨hhas, ne_global_of_scopeOf? h.scopeOf?_eq⟩

/-- **The labels of a routine after its entry are all different**, and made
up while the routine was emitted. -/
theorem nodup (h : Routine.Emits constants name params ret body t r t') :
    r.innerLabels.Nodup ∧ ∀ l ∈ r.innerLabels, Made t.counter t'.counter l
      ∧ Ident.BeginsWith l '.' := h.takes.nodup h.isBody

/-- **The labels of a routine after its entry are those of its scope**, if
the scope had none before. -/
theorem count_positions
    (h : Routine.Emits constants name params ret body t r t')
    (hnone : (t.scope r.prototype.scope).positions = []) (l : Label) :
    (t'.scope r.prototype.scope).positions.count l
      = r.innerLabels.count l := by
  rw [h.takes.counts h.isBody l,
    scope_modify_of_ne _ (ne_global_of_scopeOf? h.scopeOf?_eq).symm, hnone]
  rfl

end Routine.Emits

/-! ## All routines -/

namespace Definition.EmitsAll

variable {constants : Constants} {ds : List (Definition Judged)}
  {t t' : SymbolTable} {rs : List Routine}

theorem names_eq (h : Definition.EmitsAll constants ds t rs t') :
    rs.map Routine.name = ds.map Definition.name := by
  induction h with
  | nil => rfl
  | cons hd _ ih => rw [List.map_cons, List.map_cons, hd.name_eq, ih]

theorem counter_le (h : Definition.EmitsAll constants ds t rs t') :
    t.counter ≤ t'.counter := by
  induction h with
  | nil => exact Nat.le_refl _
  | cons hd _ ih => exact Nat.le_trans hd.counter_le ih

/-- The scopes of other bodies stay what they are. -/
theorem scope_of_notMem (h : Definition.EmitsAll constants ds t rs t')
    {id : ScopeId} {owner : Ident} (hid : t.scopeOf? owner = some id)
    (hnot : owner ∉ ds.map Definition.name) : t'.scope id = t.scope id := by
  induction h with
  | nil => rfl
  | cons hd _ ih =>
    obtain ⟨hne, hnot⟩ := not_or.mp (mt List.mem_cons.mpr hnot)
    rw [ih (hd.scopeOf?_after owner ▸ hid) hnot, hd.scope_of_ne hid hne]

theorem exists_hasShape (h : Definition.EmitsAll constants ds t rs t') :
    ∀ r ∈ rs, ∃ code exit, r.HasShape code exit := by
  induction h with
  | nil => exact nofun
  | cons hd _ ih => exact List.forall_mem_cons.mpr ⟨hd.exists_hasShape, ih⟩

theorem labels_eq (h : Definition.EmitsAll constants ds t rs t') :
    ∀ r ∈ rs, r.code.labels = r.name :: r.innerLabels := by
  intro r hr
  obtain ⟨code, exit, hshape⟩ := h.exists_hasShape r hr
  exact hshape.labels_eq.1

/-- **No label is in two routines or twice in one**, entries aside. -/
theorem nodup (h : Definition.EmitsAll constants ds t rs t') :
    (rs.flatMap Routine.innerLabels).Nodup
      ∧ ∀ l ∈ rs.flatMap Routine.innerLabels, Made t.counter t'.counter l
        ∧ Ident.BeginsWith l '.' := by
  induction h with
  | nil => exact ⟨List.nodup_nil, nofun⟩
  | cons hd hds ih =>
    obtain ⟨hfirst, hfirstMade⟩ := hd.nodup
    obtain ⟨hrest, hrestMade⟩ := ih
    rw [List.flatMap_cons]
    refine ⟨List.nodup_append.mpr ⟨hfirst, hrest, ?_⟩, fun l hl => ?_⟩
    -- the numbers of the others begin where those of the first one end
    · rintro l hl _ hl' rfl
      exact absurd ((hfirstMade l hl).1.disjoint (hrestMade l hl').1)
        (Nat.lt_irrefl _)
    · rcases List.mem_append.mp hl with hl | hl
      · exact ⟨(hfirstMade l hl).1.mono (Nat.le_refl _) hds.counter_le,
          (hfirstMade l hl).2⟩
      · exact ⟨(hrestMade l hl).1.mono hd.counter_le (Nat.le_refl _),
          (hrestMade l hl).2⟩

/-- **No entry is a label after an entry**, if names begin with no point. -/
theorem name_notMem (h : Definition.EmitsAll constants ds t rs t')
    (hnames : ∀ d ∈ ds, ¬ d.name.BeginsWith '.') :
    ∀ name ∈ rs.map Routine.name, name ∉ rs.flatMap Routine.innerLabels := by
  intro name hname hmem
  rw [h.names_eq] at hname
  obtain ⟨d, hd, rfl⟩ := List.mem_map.mp hname
  exact hnames d hd (h.nodup.2 d.name hmem).2

/-- **The labels of each routine after its entry are those of its scope**, if
the scopes had none before and no two definitions have one name. -/
theorem count_positions (h : Definition.EmitsAll constants ds t rs t')
    (hnames : (ds.map Definition.name).Nodup)
    (hnone : ∀ d ∈ ds, ∀ id, t.scopeOf? d.name = some id →
      (t.scope id).positions = []) :
    ∀ r ∈ rs, ∀ l, (t'.scope r.prototype.scope).positions.count l
      = r.innerLabels.count l := by
  induction h with
  | nil => exact nofun
  | @cons d ds r rs t t₁ t' hd hds ih =>
    obtain ⟨hfirst, hnames⟩ := List.nodup_cons.mp hnames
    obtain ⟨hnoneFirst, hnone⟩ := List.forall_mem_cons.mp hnone
    refine List.forall_mem_cons.mpr ⟨fun l => ?_, ih hnames ?_⟩
    · have hscope : t₁.scopeOf? d.name = some r.prototype.scope :=
        (hd.scopeOf?_after d.name).trans hd.scopeOf?_eq
      rw [hds.scope_of_notMem hscope hfirst]
      exact hd.count_positions (hnoneFirst _ hd.scopeOf?_eq) l
    -- the scopes of the other bodies have not changed, so they are still empty
    · intro d' hd' id hid
      rw [hd.scopeOf?_after] at hid
      have hne : d'.name ≠ d.name := fun heq =>
        hfirst (heq ▸ List.mem_map_of_mem hd')
      rw [hd.scope_of_ne hid hne]
      exact hnone d' hd' id hid

end Definition.EmitsAll

/-! ## Well-formed programs -/

/-- **A routine is well formed** over a table. -/
structure Routine.WellFormed (symbols : SymbolTable) (r : Routine) : Prop where
  /-- Its entry, which has its name, and the start come first, the exit and
  the end come last, and there is no other start or end. -/
  shape : ∃ body exit, r.code
      = .label r.name :: .enter :: body ++ [.label exit, .leave]
    ∧ .enter ∉ body ∧ .leave ∉ body
  /-- Jumps go to labels that the routine defines. -/
  targets : r.code.targets ⊆ r.code.labels
  /-- The labels of its scope are defined, each of them once. -/
  positions : ∀ l ∈ (symbols.scope r.prototype.scope).positions,
    r.code.labels.count l = 1

/-- **An assembled program is well formed.** -/
structure Assembly.WellFormed (a : Assembly) : Prop where
  /-- Each of its routines is. -/
  bodies : ∀ r ∈ a.bodies, r.WellFormed a.symbols
  /-- No jump goes to an entry. -/
  entries : ∀ r ∈ a.bodies, ∀ r' ∈ a.bodies, r'.name ∉ r.code.targets
  /-- No label is defined twice. -/
  labels : (a.bodies.flatMap (·.code.labels)).Nodup

/-- Lists that start with different names outside the lists are as different
from each other as the lists without the names. -/
theorem nodup_flatMap_labels {rs : List Routine}
    (hlabels : ∀ r ∈ rs, r.code.labels = r.name :: r.innerLabels)
    (hnames : (rs.map Routine.name).Nodup)
    (hinner : (rs.flatMap Routine.innerLabels).Nodup)
    (hdisjoint : ∀ name ∈ rs.map Routine.name,
      name ∉ rs.flatMap Routine.innerLabels) :
    (rs.flatMap (·.code.labels)).Nodup := by
  -- taken out of the routines, the entries come first
  have hperm : (rs.flatMap (·.code.labels)).Perm
      (rs.map Routine.name ++ rs.flatMap Routine.innerLabels) := by
    clear hnames hinner hdisjoint
    induction rs with
    | nil => exact .nil
    | cons r rs ih =>
      obtain ⟨hr, hrs⟩ := List.forall_mem_cons.mp hlabels
      rw [List.flatMap_cons, List.flatMap_cons, List.map_cons, hr,
        List.cons_append, List.cons_append]
      refine .cons _ ((List.Perm.append_left _ (ih hrs)).trans ?_)
      rw [← List.append_assoc, ← List.append_assoc]
      exact List.perm_append_comm.append_right _
  refine hperm.nodup_iff.mpr (List.nodup_append.mpr ⟨hnames, hinner, ?_⟩)
  rintro name hname _ hmem rfl
  exact hdisjoint name hname hmem

/-- A scope that holds a context has no labels. -/
theorem Scope.Holds.positions_eq_nil {scope : Scope} {Γ : Context}
    (h : scope.Holds Γ) : scope.positions = [] := by
  unfold Scope.positions
  rw [List.map_eq_nil_iff, List.filter_eq_nil_iff]
  intro s hs hkind
  have hplace := (h.places s hs).1
  rw [Symbol.isStorage, eq_of_beq hkind] at hplace
  cases hplace

/-- No scope of a checked program has labels. -/
theorem TypedProgram.IsCheckOf.positions_eq_nil {typed : TypedProgram}
    {p : Program Span} (h : typed.IsCheckOf p) {id : ScopeId}
    (hid : id ≠ .global) : (typed.symbols.scope id).positions = [] := by
  cases id with
  | global => exact absurd rfl hid
  | nested i =>
    rw [scope]
    cases hscope : typed.symbols.nested[i]? with
    | none => rfl
    | some scope =>
      obtain ⟨Γ, hΓ⟩ := h.nested scope (List.mem_of_getElem? hscope)
      exact hΓ.positions_eq_nil

theorem Constants.Emits.grows {c : Constants} {t t' : SymbolTable}
    (h : c.Emits t t') (id : ScopeId) : Grows id t t' := by
  cases h with
  | mk hnewline hspace hyes hno hunit =>
    exact ((((Grows.intern hnewline).trans (.intern hspace)).trans
      (.intern hyes)).trans (.intern hno)).trans (.intern hunit)

/-- The names of the bodies of a checked program are those of its definitions
and that of the main script. -/
theorem TypedProgram.IsCheckOf.map_name_bodies {typed : TypedProgram}
    {p : Program Span} (h : typed.IsCheckOf p) :
    typed.program.bodies.map Definition.name
      = p.definitions.map Definition.name ++ [Program.entryPoint] := by
  rw [Program.bodies, List.map_append, ← h.erase]
  exact congrArg (· ++ _) (Definition.map_name_erase _).symm

/-- The bodies of a well typed program have different names. -/
theorem Program.WellTyped.nodup_bodies {α : Type} [Note α] {p : Program α}
    (h : p.WellTyped) : (p.bodies.map Definition.name).Nodup := by
  rw [bodies, List.map_append, List.nodup_append]
  refine ⟨h.distinct, by simp, ?_⟩
  intro name hname main hmain
  obtain ⟨d, hd, rfl⟩ := List.mem_map.mp hname
  cases List.mem_singleton.mp hmain
  exact h.entryPoint d hd

/-- **The routines of a checked program** are those of its definitions, in
order, and that of the main script. -/
theorem TypedProgram.Emits.map_name_bodies {typed : TypedProgram}
    {a : Assembly} {p : Program Span} (h : typed.Emits a)
    (hcheck : typed.IsCheckOf p) : a.bodies.map Routine.name
      = p.definitions.map Definition.name ++ [Program.entryPoint] := by
  cases h with
  | mk _ hbodies => rw [hbodies.names_eq, hcheck.map_name_bodies]

/-- The names of the bodies of a checked program begin with no point. -/
theorem TypedProgram.IsCheckOf.not_beginsWith {typed : TypedProgram}
    {p : Program Span} (h : typed.IsCheckOf p)
    (hnames : ∀ d ∈ p.definitions, ¬ d.name.BeginsWith '.') :
    ∀ d ∈ typed.program.bodies, ¬ d.name.BeginsWith '.' := by
  intro d hd
  have hname := List.mem_map_of_mem (f := Definition.name) hd
  rw [h.map_name_bodies, List.mem_append] at hname
  rcases hname with hname | hname
  · obtain ⟨d', hd', heq⟩ := List.mem_map.mp hname
    exact heq ▸ hnames d' hd'
  · rw [List.mem_singleton.mp hname]
    decide

theorem TypedProgram.IsCheckOf.positions_eq_nil_of_emits
    {typed : TypedProgram} {p : Program Span} (h : typed.IsCheckOf p)
    {constants : Constants} {t : SymbolTable}
    (hconstants : constants.Emits typed.symbols t) {owner : Ident}
    {id : ScopeId} (hid : t.scopeOf? owner = some id) :
    (t.scope id).positions = [] := by
  have hglobal := ne_global_of_scopeOf? hid
  rw [(hconstants.grows .global).scope_of_ne hglobal.symm hglobal]
  exact h.positions_eq_nil hglobal

/-- **Emitted code is well formed.** -/
theorem TypedProgram.Emits.wellFormed {typed : TypedProgram} {a : Assembly}
    {p : Program Span} (h : typed.Emits a) (hcheck : typed.IsCheckOf p)
    (hnames : ∀ d ∈ p.definitions, ¬ d.name.BeginsWith '.') :
    a.WellFormed := by
  cases h with
  | @mk constants t _ hconstants hbodies =>
  have hdistinct := hcheck.wellTyped.nodup_bodies
  have hpoint := hbodies.name_notMem (hcheck.not_beginsWith hnames)
  have hlabels := hbodies.labels_eq
  have hentry : ∀ r ∈ a.bodies, ∀ r' ∈ a.bodies, r'.name ∉ r.innerLabels :=
    fun r hr r' hr' hmem => hpoint r'.name (List.mem_map_of_mem hr')
      (List.mem_flatMap.mpr ⟨r, hr, hmem⟩)
  have htargets : ∀ r ∈ a.bodies, r.code.targets ⊆ r.innerLabels := by
    intro r hr
    obtain ⟨code, exit, hr⟩ := hbodies.exists_hasShape r hr
    exact hr.targets
  refine ⟨fun r hr => ⟨?_, ?_, ?_⟩, fun r hr r' hr' hmem =>
    hentry r hr r' hr' (htargets r hr hmem), ?_⟩
  · obtain ⟨code, exit, hr⟩ := hbodies.exists_hasShape r hr
    exact ⟨code, exit, hr.code, hr.inner.enter, hr.inner.leave⟩
  · rw [hlabels r hr]
    exact List.subset_cons_of_subset _ (htargets r hr)
  · intro l hl
    have hcount := hbodies.count_positions hdistinct
      (fun d _ id hid => hcheck.positions_eq_nil_of_emits hconstants hid) r hr l
    have hinner : l ∈ r.innerLabels := by
      rw [← List.count_pos_iff, ← hcount, List.count_pos_iff]
      exact hl
    have hnodup : r.innerLabels.Nodup :=
      (List.pairwise_flatMap.mp hbodies.nodup.1).1 r hr
    -- no label of the scope is the entry, so the entry does not count
    rw [hlabels r hr, List.count_cons_of_ne, hnodup.count, if_pos hinner]
    rintro rfl
    exact hentry r hr r hr hinner
  · refine nodup_flatMap_labels hlabels ?_ hbodies.nodup.1 hpoint
    rw [hbodies.names_eq]
    exact hdistinct

end Primer
