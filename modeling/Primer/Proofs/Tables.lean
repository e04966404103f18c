import Primer.Proofs.Names

/-!
# How a symbol table grows

Emission asks a table for temporaries, labels and names of texts. Each of
the three either changes nothing or does one and the same thing: it makes up
a name from a stem and the counter, puts a symbol of that name at the front
of a scope and counts on (`SymbolTable.grown`). `Grows id t t'` says that
`t'` comes from `t` by such steps, with the temporaries and labels in the
scope `id` and the texts in the global one.

What is kept along the way follows from the one step: no number is given out
twice, so new labels differ from each other (`Grows.positions`); the other
scopes stay what they are (`Grows.scope_of_ne`); and in a table that is
`Tidy`, a name of a text goes on to mean that text (`Grows.constant?`).
-/

namespace Primer

open Text

namespace Scope

/-- The names of the positions of a scope, the newest first. -/
def positions (s : Scope) : List Label :=
  (s.newestFirst.filter (·.kind == .label)).map Symbol.name

@[simp] theorem positions_push_label (s : Scope) (name : Label) :
    (s.push (.label name)).positions = name :: s.positions := rfl

theorem positions_push_of_ne (s : Scope) {symbol : Symbol}
    (h : symbol.kind ≠ .label) : (s.push symbol).positions = s.positions := by
  simp [positions, push, h]

theorem find?_eq_some {s : Scope} {name : String} {symbol : Symbol}
    (h : s.find? name = some symbol) :
    symbol ∈ s.newestFirst ∧ symbol.name = name := by
  unfold find? at h
  exact ⟨List.mem_of_find?_eq_some h, by simpa using List.find?_some h⟩

/-- A declared symbol is pushed, and its name was new. -/
theorem declare_eq_ok {s s' : Scope} {symbol : Symbol}
    (h : s.declare symbol = .ok s') :
    s.find? symbol.name = none ∧ s' = s.push symbol := by
  unfold declare at h
  split at h
  · cases h
  · next hnew =>
    cases h
    exact ⟨by simpa using hnew, rfl⟩

theorem declare_of_find?_eq_none {s : Scope} {symbol : Symbol}
    (h : s.find? symbol.name = none) :
    s.declare symbol = .ok (s.push symbol) := by
  rw [declare, h]
  rfl

end Scope

namespace SymbolTable

/-- Whether a table has the scope that an id refers to. -/
def Has (t : SymbolTable) : ScopeId → Prop
  | .global => True
  | .nested i => i < t.nested.length

/-- A changed scope is the scope changed. -/
theorem scope_modify_self {t : SymbolTable} {id : ScopeId} (h : t.Has id)
    (change : Scope → Scope) :
    (t.modify id change).scope id = change (t.scope id) := by
  cases id with
  | global => rfl
  | nested i =>
    have hi : i < t.nested.length := h
    simp [modify, scope, hi]

/-- The other scopes stay what they are. -/
theorem scope_modify_of_ne (t : SymbolTable) {id id' : ScopeId}
    (h : id ≠ id') (change : Scope → Scope) :
    (t.modify id change).scope id' = t.scope id' := by
  cases id with
  | global => cases id' with
    | global => exact absurd rfl h
    | nested _ => rfl
  | nested i => cases id' with
    | global => rfl
    | nested j =>
      have hij : i ≠ j := fun hij => h (congrArg ScopeId.nested hij)
      simp [modify, scope, hij]

@[simp] theorem counter_modify (t : SymbolTable) (id : ScopeId)
    (change : Scope → Scope) : (t.modify id change).counter = t.counter := by
  cases id <;> rfl

@[simp] theorem length_nested_modify (t : SymbolTable) (id : ScopeId)
    (change : Scope → Scope) :
    (t.modify id change).nested.length = t.nested.length := by
  cases id <;> simp [modify]

/-- The owners of the nested scopes decide what is opened for whom. -/
theorem lastOwned?_congr {ss ss' : List Scope} (owner : String)
    (h : ss.map Scope.owner = ss'.map Scope.owner) :
    lastOwned? owner ss = lastOwned? owner ss' := by
  induction ss generalizing ss' with
  | nil => cases ss' with
    | nil => rfl
    | cons s' ss' => cases h
  | cons s ss ih => cases ss' with
    | nil => cases h
    | cons s' ss' =>
      rw [List.map_cons, List.map_cons, List.cons.injEq] at h
      rw [lastOwned?, lastOwned?, ih h.2, h.1]

/-- A change that keeps the owner keeps the owners of all nested scopes. -/
theorem map_owner_modify (t : SymbolTable) (id : ScopeId)
    {change : Scope → Scope} (h : ∀ s, (change s).owner = s.owner) :
    (t.modify id change).nested.map Scope.owner
      = t.nested.map Scope.owner := by
  cases id with
  | global => rfl
  | nested i =>
    refine List.ext_getElem (by simp [modify]) (fun j h₁ h₂ => ?_)
    simp only [modify, List.getElem_map, List.getElem_modify]
    split <;> simp [h]

theorem scopeOf?_modify (t : SymbolTable) (id : ScopeId)
    {change : Scope → Scope} (h : ∀ s, (change s).owner = s.owner)
    (owner : String) :
    (t.modify id change).scopeOf? owner = t.scopeOf? owner := by
  rw [scopeOf?, scopeOf?, lastOwned?_congr owner (map_owner_modify t id h)]

/-- An owner's scope is in the list and belongs to the owner. -/
theorem lastOwned?_eq_some {owner : String} {ss : List Scope} {i : Nat}
    (h : lastOwned? owner ss = some i) :
    ∃ s, ss[i]? = some s ∧ s.owner = owner := by
  induction ss generalizing i with
  | nil => cases h
  | cons s ss ih =>
    rw [lastOwned?] at h
    split at h
    · next j hj =>
      cases h
      exact ih hj
    · split at h
      · next hs =>
        cases h
        exact ⟨s, rfl, hs⟩
      · cases h

theorem has_of_scopeOf? {t : SymbolTable} {owner : String} {id : ScopeId}
    (h : t.scopeOf? owner = some id) : t.Has id := by
  obtain ⟨i, hi, rfl⟩ := Option.map_eq_some_iff.mp h
  obtain ⟨s, hs, -⟩ := lastOwned?_eq_some hi
  exact (List.getElem?_eq_some_iff.mp hs).1

theorem ne_global_of_scopeOf? {t : SymbolTable} {owner : String}
    {id : ScopeId} (h : t.scopeOf? owner = some id) : id ≠ .global := by
  obtain ⟨i, -, rfl⟩ := Option.map_eq_some_iff.mp h
  exact ScopeId.noConfusion

/-- **Two owners have two scopes.** -/
theorem scopeOf?_inj {t : SymbolTable} {owner owner' : String}
    {id : ScopeId} (h : t.scopeOf? owner = some id)
    (h' : t.scopeOf? owner' = some id) : owner = owner' := by
  obtain ⟨i, hi, rfl⟩ := Option.map_eq_some_iff.mp h
  obtain ⟨j, hj, hij⟩ := Option.map_eq_some_iff.mp h'
  cases hij
  obtain ⟨s, hs, rfl⟩ := lastOwned?_eq_some hi
  obtain ⟨s', hs', rfl⟩ := lastOwned?_eq_some hj
  rw [hs] at hs'
  exact congrArg Scope.owner (Option.some.inj hs')

/-! ## One step of growth -/

/-- **The table with one more made-up name.** -/
def grown (t : SymbolTable) (stem : String) (id : ScopeId)
    (symbol : String → Symbol) : SymbolTable :=
  { t with counter := t.counter + 1 }.modify id
    (·.push (symbol (stem ++ Decimal.ofNat t.counter)))

/-- What emission adds to a table in the body with the scope `id`. -/
inductive Addition (id : ScopeId) :
    String → ScopeId → (String → Symbol) → Prop
  /-- A temporary of the body. -/
  | temporary (ty : Ty) : Addition id "%t" id (.temporary · ty)
  /-- A label of the body. -/
  | label {hint : String} (h : Stem ("." ++ hint)) :
    Addition id ("." ++ hint) id .label
  /-- A text. -/
  | constant (text : String) : Addition id ".str" .global (.constant · text)

namespace Addition

variable {id id' : ScopeId} {stem : String} {symbol : String → Symbol}

theorem isStem (h : Addition id stem id' symbol) : Stem stem := by
  cases h with
  | temporary => exact stem_temporary
  | label h => exact h
  | constant => exact stem_constant

theorem name_eq (h : Addition id stem id' symbol) (name : String) :
    (symbol name).name = name := by
  cases h <;> rfl

end Addition

variable {t t' : SymbolTable} {id id' : ScopeId} {stem : String}
  {symbol : String → Symbol}

@[simp] theorem counter_grown :
    (t.grown stem id symbol).counter = t.counter + 1 := by
  simp [grown]

theorem scope_grown_self (h : t.Has id) :
    (t.grown stem id symbol).scope id
      = (t.scope id).push (symbol (stem ++ Decimal.ofNat t.counter)) := by
  unfold grown
  rw [scope_modify_self (by cases id <;> exact h)]
  cases id <;> rfl

theorem scope_grown_of_ne (h : id ≠ id') :
    (t.grown stem id symbol).scope id' = t.scope id' := by
  unfold grown
  rw [scope_modify_of_ne _ h]
  cases id' <;> rfl

theorem freshTemporary_eq (t : SymbolTable) (id : ScopeId) (ty : Ty) :
    t.freshTemporary id ty
      = ("%t" ++ Decimal.ofNat t.counter,
        t.grown "%t" id (.temporary · ty)) := rfl

theorem made_freshTemporary {t' : SymbolTable} {ty : Ty} {temp : Slot}
    (h : t.freshTemporary id ty = (temp, t')) :
    Made t.counter t'.counter temp := by
  rw [freshTemporary_eq] at h
  cases h
  rw [counter_grown]
  exact Made.single stem_temporary t.counter

theorem freshLabel_eq (t : SymbolTable) (id : ScopeId) (hint : String) :
    t.freshLabel id (some hint)
      = ("." ++ hint ++ Decimal.ofNat t.counter,
        t.grown ("." ++ hint) id .label) := rfl

theorem intern_of_none {text : String} (h : t.labelOf? text = none) :
    t.intern text
      = (".str" ++ Decimal.ofNat t.counter,
        t.grown ".str" .global (.constant · text)) := by
  rw [intern, h]
  rfl

theorem intern_of_some {text : String} {label : Label}
    (h : t.labelOf? text = some label) : t.intern text = (label, t) := by
  rw [intern, h]

/-! ## Growth -/

/-- **Growth in the scope `id`**: any number of steps, the texts going to the
global scope. -/
inductive Grows (id : ScopeId) : SymbolTable → SymbolTable → Prop
  /-- No step. -/
  | refl (t : SymbolTable) : Grows id t t
  /-- One more step. -/
  | step {t t' : SymbolTable} {stem : String} {id' : ScopeId}
      {symbol : String → Symbol} (h : Grows id t t')
      (ha : Addition id stem id' symbol) :
      Grows id t (t'.grown stem id' symbol)

namespace Grows

theorem trans {t t' t'' : SymbolTable} (h : Grows id t t')
    (h' : Grows id t' t'') : Grows id t t'' := by
  induction h' with
  | refl => exact h
  | step _ ha ih => exact ih.step ha

theorem temporary {ty : Ty} {temp : Slot}
    (h : t.freshTemporary id ty = (temp, t')) : Grows id t t' := by
  rw [freshTemporary_eq] at h
  cases h
  exact (refl t).step (.temporary ty)

theorem label {hint : String} {label : Label} (hstem : Stem ("." ++ hint))
    (h : t.freshLabel id (some hint) = (label, t')) : Grows id t t' := by
  rw [freshLabel_eq] at h
  cases h
  exact (refl t).step (.label hstem)

/-- A text. -/
theorem intern {text : String} {label : Label}
    (h : t.intern text = (label, t')) : Grows id t t' := by
  cases hl : t.labelOf? text with
  | none =>
    rw [intern_of_none hl] at h
    cases h
    exact (refl t).step (.constant text)
  | some _ =>
    rw [intern_of_some hl] at h
    cases h
    exact refl t

/-- The counter never goes back. -/
theorem counter_le (h : Grows id t t') : t.counter ≤ t'.counter := by
  induction h with
  | refl => exact Nat.le_refl _
  | step _ _ ih =>
    rw [counter_grown]
    exact Nat.le_succ_of_le ih

theorem length_nested (h : Grows id t t') :
    t'.nested.length = t.nested.length := by
  induction h with
  | refl => rfl
  | step _ _ ih => rw [grown, length_nested_modify, ih]

/-- A scope that exists goes on to exist. -/
theorem has (h : Grows id t t') {id' : ScopeId} (hid : t.Has id') :
    t'.Has id' := by
  cases id' with
  | global => trivial
  | nested i =>
    unfold Has
    rw [h.length_nested]
    exact hid

/-- What was opened for an owner stays so. -/
theorem scopeOf? (h : Grows id t t') (owner : String) :
    t'.scopeOf? owner = t.scopeOf? owner := by
  induction h with
  | refl => rfl
  | step _ _ ih =>
    unfold grown
    rw [scopeOf?_modify _ _ (by exact fun _ => rfl)]
    exact ih

/-- **The scopes of other bodies stay what they are.** -/
theorem scope_of_ne (h : Grows id t t') {id' : ScopeId} (hid : id ≠ id')
    (hglobal : id' ≠ .global) : t'.scope id' = t.scope id' := by
  induction h with
  | refl => rfl
  | step _ ha ih =>
    rw [scope_grown_of_ne, ih]
    cases ha with
    | temporary => exact hid
    | label => exact hid
    | constant => exact hglobal.symm

/-- **The new positions of the body**: they come before the old ones, no two
of them are the same, their numbers are those that were counted, and they
begin with a point. -/
theorem positions (h : Grows id t t') (hid : t.Has id)
    (hglobal : id ≠ .global) :
    ∃ new, (t'.scope id).positions = new ++ (t.scope id).positions
      ∧ new.Nodup ∧ ∀ l ∈ new, Made t.counter t'.counter l
        ∧ Ident.BeginsWith l '.' := by
  induction h with
  | refl => exact ⟨[], rfl, List.nodup_nil, by simp⟩
  | @step t' stem id' symbol h ha ih =>
    obtain ⟨new, hnew, hnodup, hmade⟩ := ih
    have hwider : ∀ l ∈ new, Made t.counter (t'.counter + 1) l
        ∧ Ident.BeginsWith l '.' := fun l hl =>
      ⟨(hmade l hl).1.mono (Nat.le_refl _) (Nat.le_succ _), (hmade l hl).2⟩
    rw [counter_grown]
    cases ha with
    | temporary ty =>
      refine ⟨new, ?_, hnodup, hwider⟩
      rw [scope_grown_self (h.has hid),
        Scope.positions_push_of_ne _ SymbolKind.noConfusion, hnew]
    | constant text =>
      refine ⟨new, ?_, hnodup, hwider⟩
      rw [scope_grown_of_ne hglobal.symm, hnew]
    | label hstem =>
      -- all names so far have smaller numbers than the new one
      have hnext := Made.single hstem t'.counter
      have hmem : _ ∉ new := fun hmem =>
        absurd ((hmade _ hmem).1.disjoint hnext) (Nat.lt_irrefl _)
      refine ⟨_ :: new, ?_, List.nodup_cons.mpr ⟨hmem, hnodup⟩, ?_⟩
      · rw [scope_grown_self (h.has hid), Scope.positions_push_label, hnew]
        rfl
      · exact List.forall_mem_cons.mpr
          ⟨⟨hnext.mono h.counter_le (Nat.le_refl _), Ident.beginsWith_point ..⟩,
            hwider⟩

end Grows

/-! ## Names of texts -/

/-- **A tidy table**: the symbol of a text is what its name means, and no
global symbol has a number that has not been counted yet. -/
structure Tidy (t : SymbolTable) : Prop where
  /-- The symbol of a text is what its name means. -/
  found : ∀ s ∈ t.global.newestFirst, ∀ text, s.kind = .constant text →
    t.global.find? s.name = some s
  /-- No global name is made up from a number still to come. -/
  ahead : ∀ s ∈ t.global.newestFirst, ∀ hi, ¬ Made t.counter hi s.name

theorem tidy_of_global_eq {t : SymbolTable} {owner : String}
    (h : t.global = .empty owner) : t.Tidy := by
  constructor <;> simp [h, Scope.empty]

theorem constant?_push_of_ne (t : SymbolTable) {symbol : Symbol}
    {label : Label} (h : symbol.name ≠ label) :
    (t.modify .global (·.push symbol)).constant? label
      = t.constant? label := by
  simp only [constant?, modify, Scope.find?_push_of_ne _ h]

/-- What a text is called after a symbol was pushed to the global scope. -/
theorem labelOf?_push (t : SymbolTable) (symbol : Symbol)
    (text : String) :
    (t.modify .global (·.push symbol)).labelOf? text
      = if symbol.kind = .constant text then some symbol.name
        else t.labelOf? text := by
  show (List.find? _ (symbol :: t.global.newestFirst)).map Symbol.name = _
  by_cases hkind : symbol.kind = .constant text
  · rw [if_pos hkind, List.find?_cons, beq_iff_eq.mpr hkind]
    rfl
  · rw [if_neg hkind, List.find?_cons, beq_eq_false_iff_ne.mpr hkind]
    rfl

theorem labelOf?_grown_constant (t : SymbolTable) (text text' : String) :
    (t.grown ".str" .global (.constant · text')).labelOf? text
      = if text' = text then some (".str" ++ Decimal.ofNat t.counter)
        else t.labelOf? text := by
  refine (labelOf?_push _ (.constant _ text') text).trans ?_
  simp [Symbol.constant, labelOf?]

theorem exists_of_constant? {label : Label} {text : String}
    (h : t.constant? label = some text) :
    ∃ s ∈ t.global.newestFirst, s.name = label
      ∧ t.global.find? label = some s := by
  obtain ⟨s, hs, -⟩ := Option.bind_eq_some_iff.mp h
  exact ⟨s, (Scope.find?_eq_some hs).1, (Scope.find?_eq_some hs).2, hs⟩

namespace Tidy

/-- A tidy table with a global symbol more, whose name is new to it, is tidy
again. -/
theorem push (h : t.Tidy) {symbol : Symbol}
    (hnew : ∀ s ∈ t.global.newestFirst, symbol.name ≠ s.name)
    {counter : Nat} (hcounter : t.counter ≤ counter)
    (hahead : ∀ hi, ¬ Made counter hi symbol.name) :
    Tidy { t with global := t.global.push symbol, counter := counter } where
  found := by
    intro s hs text hkind
    rcases List.mem_cons.mp hs with rfl | hs
    · exact Scope.find?_push_self t.global _
    · exact (Scope.find?_push_of_ne _ (hnew s hs)).trans
        (h.found s hs text hkind)
  ahead := by
    intro s hs hi hmade
    rcases List.mem_cons.mp hs with rfl | hs
    · exact hahead hi hmade
    · exact h.ahead s hs hi (hmade.mono hcounter (Nat.le_refl _))

theorem ne_next (h : t.Tidy) {s : Symbol}
    (hs : s ∈ t.global.newestFirst) (hstem : Stem stem) :
    stem ++ Decimal.ofNat t.counter ≠ s.name :=
  fun hname => h.ahead s hs _ (hname ▸ Made.single hstem t.counter)

/-- A tidy table stays tidy by a step of growth. -/
theorem grown (h : t.Tidy) (ha : Addition id stem id' symbol) :
    (t.grown stem id' symbol).Tidy := by
  have hnext : ∀ hi, ¬ Made (t.counter + 1) hi
      (stem ++ Decimal.ofNat t.counter) := fun hi hmade =>
    absurd ((Made.single ha.isStem t.counter).disjoint hmade)
      (Nat.lt_irrefl _)
  cases id' with
  | global =>
    refine h.push (fun s hs => ?_) (Nat.le_succ _) ?_
    · rw [ha.name_eq]
      exact h.ne_next hs ha.isStem
    · rw [ha.name_eq]
      exact hnext
  | nested i =>
    -- the global scope is the one of before, and the counter is greater
    exact ⟨h.found, fun s hs hi hmade =>
      h.ahead s hs hi (hmade.mono (Nat.le_succ _) (Nat.le_refl _))⟩

theorem grows (ht : t.Tidy) (h : Grows id t t') : t'.Tidy := by
  induction h with
  | refl => exact ht
  | step _ ha ih => exact ih.grown ha

/-- **The name of a text means the text.** -/
theorem constant?_intern (h : t.Tidy) {text : String} {label : Label}
    (hl : t.intern text = (label, t')) : t'.constant? label = some text := by
  cases hlabel : t.labelOf? text with
  | none =>
    rw [intern_of_none hlabel] at hl
    cases hl
    have hfind := Scope.find?_push_self t.global
      (.constant (".str" ++ Decimal.ofNat t.counter) text)
    exact Option.bind_eq_some_iff.mpr ⟨_, hfind, rfl⟩
  | some label' =>
    rw [intern_of_some hlabel] at hl
    cases hl
    -- the text has a name already, and what that means is its symbol
    obtain ⟨s, hs, rfl⟩ := Option.map_eq_some_iff.mp hlabel
    have hkind : s.kind = .constant text := by
      simpa using List.find?_some hs
    have hfind := h.found s (List.mem_of_find?_eq_some hs) text hkind
    refine Option.bind_eq_some_iff.mpr ⟨s, hfind, ?_⟩
    rw [Symbol.constantText?, hkind]

end Tidy

/-- **A name of a text goes on to mean that text.** -/
theorem Grows.constant? (h : Grows id t t') (ht : t.Tidy) {label : Label}
    {text : String} (hl : t.constant? label = some text) :
    t'.constant? label = some text := by
  induction h with
  | refl => exact hl
  | @step t' stem id' symbol h ha ih =>
    obtain ⟨s, hs, rfl, -⟩ := exists_of_constant? ih
    have hne := (ht.grows h).ne_next hs ha.isStem
    cases id' with
    | nested i => exact ih
    | global =>
      refine (constant?_push_of_ne t' ?_).trans ih
      rw [ha.name_eq]
      exact hne

end SymbolTable

end Primer
