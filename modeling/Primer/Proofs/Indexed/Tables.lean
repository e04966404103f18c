import Mathlib.Data.List.Basic
import Primer.Indexed.Table
import Primer.Proofs.Histories.Scoping

/-!
# Indexed tables and symbol tables

Without its index, and with its symbols in a list, an indexed scope is a
`Scope`; without its maps, an indexed table is a `SymbolTable`
(`IndexedTable.plain`). What keeps the two together is that the parts of an
indexed table are *in step* (`IndexedTable.InStep`): an index finds the newest
symbol of a name, the scope around a scope is the one that its id says, and
the two maps of a table have what could be read off its scopes.

A table in step stays in step by every operation, no operation on it breaks
off, and what is answered is what the symbol table answers. For operations
that change a table all this is `IndexedTable.Matches`.
-/

namespace Primer

open Text

/-! ## Scopes -/

namespace IndexedScope

/-- **The scope without its index.** -/
def plain (s : IndexedScope) : Scope := ⟨s.owner, s.symbols.toList.reverse⟩

/-- **An index is in step** with the symbols: what is found for a name is the
newest symbol of that name, and no position is beyond the end. -/
def InStep (s : IndexedScope) : Prop :=
  ∀ name, s.find name = some (s.plain.find? name)

variable {s : IndexedScope}

@[simp] theorem symbols_plain (s : IndexedScope) :
    s.plain.symbols = s.symbols.toList := by
  simp [plain, Scope.symbols]

@[simp] theorem plain_push (s : IndexedScope) (symbol : Symbol) :
    (s.push symbol).plain = s.plain.push symbol := by
  simp [plain, push, Scope.push]

theorem inStep_empty (owner : String) (parent : Option ScopeId) :
    (empty owner parent).InStep := by
  intro name
  simp [find, empty, plain, Scope.find?]

namespace InStep

theorem lt_size (h : s.InStep) {name : String} {position : Nat}
    (hposition : s.index[name]? = some position) :
    position < s.symbols.size := by
  have hfind := h name
  simp only [find, hposition] at hfind
  obtain ⟨symbol, hsymbol, -⟩ := Option.map_eq_some_iff.mp hfind
  exact (Array.getElem?_eq_some_iff.mp hsymbol).1

/-- The index has the names that mean something. -/
theorem contains_eq (h : s.InStep) (name : String) :
    s.index.contains name = (s.plain.find? name).isSome := by
  have hfind := h name
  rw [Std.HashMap.contains_eq_isSome_getElem?]
  cases hposition : s.index[name]? with
  | none =>
    simp only [find, hposition, Option.some.injEq] at hfind
    rw [← hfind]
    rfl
  | some position =>
    simp only [find, hposition, Option.map_eq_some_iff] at hfind
    obtain ⟨symbol, -, hsymbol⟩ := hfind
    rw [← hsymbol]
    rfl

/-- **An index stays in step** when a symbol is pushed, be its name new or
not. -/
theorem push (h : s.InStep) (symbol : Symbol) : (s.push symbol).InStep := by
  intro name
  rw [plain_push]
  by_cases hname : symbol.name = name
  · -- the index has the position of the new symbol
    subst hname
    simp [find, IndexedScope.push]
  · -- the index and the array have what they had
    rw [Scope.find?_push_of_ne _ hname, ← h name]
    unfold find
    simp only [IndexedScope.push, Std.HashMap.getElem?_insert,
      beq_iff_eq, if_neg hname]
    cases hposition : s.index[name]? with
    | none => rfl
    | some position =>
      simp [Array.getElem?_push, Nat.ne_of_lt (h.lt_size hposition)]

theorem declare_of_find?_eq_none (h : s.InStep) {symbol : Symbol}
    (hnew : s.plain.find? symbol.name = none) :
    s.declare symbol = .ok (s.push symbol) := by
  simp [declare, h.contains_eq, hnew]

theorem declare_of_find?_eq_some (h : s.InStep) {symbol symbol' : Symbol}
    (hold : s.plain.find? symbol.name = some symbol') :
    s.declare symbol = .error (.alreadyDeclared symbol.name) := by
  simp [declare, h.contains_eq, hold]

end InStep

end IndexedScope

/-! ## Tables -/

@[simp] theorem ScopeId.ofNumber_number (id : ScopeId) :
    ofNumber id.number = id := by
  cases id <;> rfl

@[simp] theorem ScopeId.number_ofNumber (n : Nat) :
    (ofNumber n).number = n := by
  cases n <;> rfl

theorem ScopeId.number_injective {id id' : ScopeId}
    (h : id.number = id'.number) : id = id' := by
  rw [← ofNumber_number id, h, ofNumber_number]

theorem SymbolTable.lookup_eq_global {t : SymbolTable} {id : ScopeId}
    {name : String} (h : (t.scope id).find? name = none) :
    t.lookup id name = t.lookup .global name := by
  unfold lookup
  rw [h]
  cases hglobal : t.global.find? name <;> simp [scope, hglobal]

theorem SymbolTable.labelOf?_modify_push (t : SymbolTable) (id : ScopeId)
    {symbol : Symbol} (h : ∀ text, symbol.kind ≠ .constant text)
    (text : String) :
    (t.modify id (·.push symbol)).labelOf? text = t.labelOf? text := by
  cases id with
  | nested i => rfl
  | global => rw [labelOf?_push, if_neg (h text)]

namespace IndexedTable

/-- **The table without its indexes and maps.** -/
def plain (t : IndexedTable) : SymbolTable where
  global := ((t.scope .global).map IndexedScope.plain).getD (.empty "")
  nested := t.scopes.toList.tail.map IndexedScope.plain
  counter := t.counter

/-- Whether a table has the scope that an id refers to. -/
def Has (t : IndexedTable) (id : ScopeId) : Prop :=
  id.number < t.scopes.size

instance (t : IndexedTable) (id : ScopeId) : Decidable (t.Has id) :=
  inferInstanceAs (Decidable (_ < _))

variable {t : IndexedTable} {id : ScopeId} {s : IndexedScope}

theorem has_iff : t.Has id ↔ ∃ s, t.scope id = some s := by
  rw [Has, scope, ← Option.isSome_iff_exists]
  simp

/-- A scope of the table without the rest is the scope without its index. -/
theorem scope_plain (h : t.scope id = some s) :
    t.plain.scope id = s.plain := by
  cases id with
  | global => simp [SymbolTable.scope, plain, h]
  | nested i =>
    have hi : t.scopes[i + 1]? = some s := h
    simp [SymbolTable.scope, plain, hi]

/-- A symbol that is pushed to a scope is pushed to it without the rest. -/
theorem plain_setScope_push (h : t.scope id = some s) (symbol : Symbol) :
    (t.setScope id (s.push symbol)).plain
      = t.plain.modify id (·.push symbol) := by
  obtain ⟨⟨scopes⟩, owners, strings, counter⟩ := t
  cases scopes with
  | nil => cases id <;> cases h
  | cons first rest =>
    cases id with
    | global =>
      have hfirst : some first = some s := h
      cases hfirst
      simp [plain, setScope, scope, ScopeId.number, SymbolTable.modify]
    | nested i =>
      have hi : rest[i]? = some s := by simpa [scope, ScopeId.number] using h
      simp only [plain, setScope, scope, ScopeId.number, SymbolTable.modify,
        List.setIfInBounds_toArray, List.set_cons_succ, List.tail_cons,
        List.map_set, IndexedScope.plain_push]
      rw [List.modify_eq_set_getElem?, List.getElem?_map, hi]
      simp

/-! ### Being in step -/

/-- **The scopes of a table are in step**, and so is the map of the owners. -/
structure Shaped (t : IndexedTable) : Prop where
  /-- There is a global scope. -/
  nonempty : 0 < t.scopes.size
  /-- The index of each scope is in step. -/
  scopes : ∀ id s, t.scope id = some s → s.InStep
  /-- The scope around a scope is the one that its id says. -/
  parents : ∀ id s, t.scope id = some s → s.parent = id.parent?
  /-- An owner has the latest scope that was opened for it. -/
  owners : ∀ owner, t.scopeOf? owner = t.plain.scopeOf? owner

theorem Shaped.has_global (h : t.Shaped) : t.Has .global := h.nonempty

/-- A table with a global scope has the scopes that it has without the rest.
-/
theorem Shaped.has_plain (h : t.Shaped) : t.plain.Has id ↔ t.Has id := by
  cases id with
  | global => exact iff_of_true trivial h.nonempty
  | nested i =>
    show i < (t.scopes.toList.tail.map _).length ↔ i + 1 < t.scopes.size
    simp
    omega

/-- **A table is in step.** -/
structure InStep (t : IndexedTable) : Prop extends t.Shaped where
  /-- A text has the name of the symbol that stands for it. -/
  strings : ∀ text, t.strings[text]? = t.plain.labelOf? text

/-- **What an operation gives** is what it gives without indexes and maps: it
does not break off, the answers are the same, and the table after it is in
step. -/
def Matches {α : Type} (result : Attempt (α × IndexedTable))
    (expected : α × SymbolTable) : Prop :=
  ∃ t, result = some (expected.1, t) ∧ t.InStep ∧ t.plain = expected.2

theorem scope_empty (h : empty.scope id = some s) :
    id = .global ∧ s = .empty "<global>" none := by
  cases id with
  | global => exact ⟨rfl, (Option.some.inj h).symm⟩
  | nested i => simp [empty, scope, ScopeId.number] at h

/-- The table at the start is in step. -/
theorem inStep_empty : empty.InStep where
  nonempty := by simp [empty]
  scopes := by
    intro id s h
    obtain ⟨-, rfl⟩ := scope_empty h
    exact IndexedScope.inStep_empty _ _
  parents := by
    intro id s h
    obtain ⟨rfl, rfl⟩ := scope_empty h
    rfl
  owners owner := by simp [empty, scopeOf?, plain, SymbolTable.scopeOf?,
    SymbolTable.lastOwned?]
  strings text := by simp [empty, plain, scope, ScopeId.number,
    SymbolTable.labelOf?, IndexedScope.plain, IndexedScope.empty]

@[simp] theorem plain_empty : empty.plain = .empty := rfl

/-! ### A scope more -/

theorem scope_addScope (t : IndexedTable) (owner : String) (id : ScopeId) :
    (t.addScope owner).2.scope id = if id.number = t.scopes.size
      then some (.empty owner (some .global)) else t.scope id := by
  simp [addScope, scope, Array.getElem?_push]

theorem addScope_plain (h : 0 < t.scopes.size) (owner : String) :
    t.plain.addScope owner
      = (.ofNumber t.scopes.size, (t.addScope owner).2.plain) := by
  obtain ⟨⟨scopes⟩, owners, strings, counter⟩ := t
  cases scopes with
  | nil => simp at h
  | cons first rest =>
    simp [SymbolTable.addScope, addScope, plain, scope, ScopeId.number,
      ScopeId.ofNumber, IndexedScope.plain, IndexedScope.empty, Scope.empty]

/-- **A scope is opened.** -/
theorem InStep.addScope (h : t.InStep) (owner : String) :
    Matches (some (t.addScope owner)) (t.plain.addScope owner) := by
  have hplain := addScope_plain h.nonempty owner
  refine ⟨(t.addScope owner).2, by rw [hplain]; rfl, ?_, by rw [hplain]⟩
  constructor
  · constructor
    · simp [IndexedTable.addScope]
    · intro id s hs
      rw [scope_addScope] at hs
      split at hs
      · cases hs
        exact IndexedScope.inStep_empty _ _
      · exact h.scopes id s hs
    · intro id s hs
      rw [scope_addScope] at hs
      split at hs
      · next hid =>
        cases hs
        cases id with
        | global => exact absurd hid (Nat.ne_of_lt h.nonempty)
        | nested i => rfl
      · exact h.parents id s hs
    · intro owner'
      have hopened := SymbolTable.scopeOf?_addScope t.plain owner owner'
      rw [hplain] at hopened
      have hid : ScopeId.nested t.plain.nested.length
          = .ofNumber t.scopes.size :=
        congrArg Prod.fst hplain
      rw [hopened, ← h.owners, hid]
      simp [IndexedTable.addScope, scopeOf?, Std.HashMap.getElem?_insert]
  · intro text
    have hlabel : (t.plain.addScope owner).2.labelOf? text
      = t.plain.labelOf? text := rfl
    rw [hplain] at hlabel
    exact (h.strings text).trans hlabel.symm

/-! ### A symbol more -/

theorem scope_setScope (h : t.Has id) (s : IndexedScope) (id' : ScopeId) :
    (t.setScope id s).scope id'
      = if id = id' then some s else t.scope id' := by
  unfold Has at h
  by_cases hid : id = id'
  · subst hid
    simp [setScope, scope, h]
  · have hnumber : id.number ≠ id'.number :=
      fun hnumber => hid (ScopeId.number_injective hnumber)
    simp [setScope, scope, hid, hnumber]

/-- A symbol is pushed to a scope of the table. -/
theorem Shaped.push (h : t.Shaped) (hs : t.scope id = some s)
    (symbol : Symbol) : (t.setScope id (s.push symbol)).Shaped where
  nonempty := by simpa [setScope] using h.nonempty
  scopes := by
    intro id' s' hs'
    rw [scope_setScope (has_iff.mpr ⟨s, hs⟩)] at hs'
    split at hs'
    · cases hs'
      exact (h.scopes id s hs).push symbol
    · exact h.scopes id' s' hs'
  parents := by
    intro id' s' hs'
    rw [scope_setScope (has_iff.mpr ⟨s, hs⟩)] at hs'
    split at hs'
    · next hid =>
      cases hs'
      cases hid
      exact h.parents id s hs
    · exact h.parents id' s' hs'
  owners := by
    intro owner
    rw [plain_setScope_push hs,
      SymbolTable.scopeOf?_modify _ _ (by exact fun _ => rfl)]
    exact h.owners owner

/-- **A name is made up**, which the map of the texts takes no notice of. -/
theorem Shaped.make (h : t.Shaped) (hid : t.Has id) (stem : String)
    (symbol : String → Symbol) :
    ∃ t', t.make id stem symbol
        = some (stem ++ Decimal.ofNat t.plain.counter, t')
      ∧ t'.Shaped ∧ t'.plain = t.plain.grown stem id symbol
      ∧ t'.strings = t.strings := by
  obtain ⟨s, hs⟩ := has_iff.mp hid
  -- the scopes do not depend on the counter
  let counted : IndexedTable := { t with counter := t.counter + 1 }
  have hcounted : counted.Shaped :=
    ⟨h.nonempty, h.scopes, h.parents, h.owners⟩
  have hscope : counted.scope id = some s := hs
  refine ⟨_, ?_, hcounted.push hscope (symbol _),
    plain_setScope_push hscope _, rfl⟩
  simp [IndexedTable.make, hs, counted, plain]

namespace InStep

/-- **A name is declared or refused** by both tables. -/
theorem declare (h : t.InStep) (hid : t.Has id) {symbol : Symbol}
    (hkind : ∀ text, symbol.kind ≠ .constant text) :
    (∃ t', t.declare id symbol = some (.ok t') ∧ t'.InStep
        ∧ t.plain.declare id symbol = .ok t'.plain)
      ∨ ∃ error, t.declare id symbol = some (.error error)
        ∧ t.plain.declare id symbol = .error error := by
  obtain ⟨s, hs⟩ := has_iff.mp hid
  have hscope := scope_plain hs
  cases hfind : s.plain.find? symbol.name with
  | none =>
    have hdeclare := (h.scopes id s hs).declare_of_find?_eq_none hfind
    have hplain := plain_setScope_push hs symbol
    refine .inl ⟨t.setScope id (s.push symbol), ?_, ⟨h.push hs symbol, ?_⟩, ?_⟩
    · simp [IndexedTable.declare, hs, hdeclare, Except.map]
    · intro text
      rw [hplain, SymbolTable.labelOf?_modify_push _ _ hkind]
      exact h.strings text
    · rw [SymbolTable.declare_of_find?_eq_none (by rw [hscope, hfind]), hplain]
  | some symbol' =>
    have hdeclare := (h.scopes id s hs).declare_of_find?_eq_some hfind
    refine .inr ⟨.alreadyDeclared symbol.name, ?_, ?_⟩
    · simp [IndexedTable.declare, hs, hdeclare, Except.map]
    · exact SymbolTable.declare_of_find?_eq_some (by rw [hscope, hfind])

/-- A name is made up for what stands for no text. -/
theorem make (h : t.InStep) (hid : t.Has id) (stem : String)
    {symbol : String → Symbol}
    (hkind : ∀ name text, (symbol name).kind ≠ .constant text) :
    Matches (t.make id stem symbol)
      (stem ++ Decimal.ofNat t.plain.counter,
        t.plain.grown stem id symbol) := by
  obtain ⟨t', hmake, hshaped, hplain, hstrings⟩ :=
    h.toShaped.make hid stem symbol
  refine ⟨t', hmake, ⟨hshaped, fun text => ?_⟩, hplain⟩
  rw [hstrings, hplain, SymbolTable.grown,
    SymbolTable.labelOf?_modify_push _ _ (hkind _)]
  exact h.strings text

/-- **A temporary is made up.** -/
theorem freshTemporary (h : t.InStep) (hid : t.Has id) (ty : Ty) :
    Matches (t.freshTemporary id ty) (t.plain.freshTemporary id ty) :=
  h.make hid "%t" fun _ _ => SymbolKind.noConfusion

/-- **A label is made up.** -/
theorem freshLabel (h : t.InStep) (hid : t.Has id) (hint : Option String) :
    Matches (t.freshLabel id hint) (t.plain.freshLabel id hint) :=
  h.make hid _ fun _ _ => SymbolKind.noConfusion

/-- **A text has its name**, from the map or made up. -/
theorem intern (h : t.InStep) (text : String) :
    Matches (t.intern text) (t.plain.intern text) := by
  cases hlabel : t.plain.labelOf? text with
  | some label =>
    rw [SymbolTable.intern_of_some hlabel]
    exact ⟨t, by simp [IndexedTable.intern, h.strings, hlabel], h, rfl⟩
  | none =>
    rw [SymbolTable.intern_of_none hlabel]
    obtain ⟨t', hmake, hshaped, hplain, hstrings⟩ :=
      h.toShaped.make h.has_global ".str" (.constant · text)
    have hlabels : ∀ text', t'.plain.labelOf? text'
        = if text = text' then some (".str" ++ Decimal.ofNat t.plain.counter)
          else t.plain.labelOf? text' := by
      intro text'
      rw [hplain]
      exact SymbolTable.labelOf?_grown_constant t.plain text' text
    let strings := t'.strings.insert text
      (".str" ++ Decimal.ofNat t.plain.counter)
    refine ⟨{ t' with strings }, ?_, ⟨⟨hshaped.nonempty, hshaped.scopes,
      hshaped.parents, hshaped.owners⟩, ?_⟩, hplain⟩
    · simp [IndexedTable.intern, h.strings, hlabel, hmake, strings]
    · -- the map has the new name beside those that it had
      intro text'
      show strings[text']? = t'.plain.labelOf? text'
      rw [hlabels, Std.HashMap.getElem?_insert, hstrings, h.strings]
      simp

/-! ### Reading -/

theorem scopeOf? (h : t.InStep) (owner : String) :
    t.scopeOf? owner = t.plain.scopeOf? owner :=
  h.owners owner

/-- **The scope around a scope** is the one that its id says. -/
theorem parent (h : t.InStep) (hid : t.Has id) :
    t.parent id = some id.parent? := by
  obtain ⟨s, hs⟩ := has_iff.mp hid
  simp [IndexedTable.parent, hs, h.parents id s hs]

theorem symbols (hid : t.Has id) :
    t.symbols id = some (t.plain.scope id).symbols := by
  obtain ⟨s, hs⟩ := has_iff.mp hid
  simp [IndexedTable.symbols, hs, scope_plain hs]

theorem formals (hid : t.Has id) :
    t.formals id = some (t.plain.scope id).formals := by
  simp [IndexedTable.formals, symbols hid, Scope.formals]

theorem constants (h : t.InStep) : t.constants = some t.plain.constants := by
  simp [IndexedTable.constants, symbols h.has_global,
    SymbolTable.constants, SymbolTable.scope]

theorem constant (h : t.InStep) (label : Label) :
    t.constant label = some (t.plain.constant? label) := by
  obtain ⟨s, hs⟩ := has_iff.mp h.has_global
  have hglobal : t.plain.global = s.plain := scope_plain hs
  simp [IndexedTable.constant, hs, h.scopes _ s hs label,
    SymbolTable.constant?, hglobal]

end InStep

/-! ### Lookups -/

section Walk

variable {name : String} {symbol : Symbol} {outer : ScopeId}

theorem walk_of_some (hs : t.scope id = some s)
    (hfind : s.find name = some (some symbol)) (steps : Nat) :
    t.walk name (steps + 1) id = some (.ok symbol) := by
  simp [walk, hs, hfind]

theorem walk_of_none (hs : t.scope id = some s)
    (hfind : s.find name = some none) (hparent : s.parent = none)
    (steps : Nat) :
    t.walk name (steps + 1) id = some (.error (.notDeclared name)) := by
  simp [walk, hs, hfind, hparent]

theorem walk_of_parent (hs : t.scope id = some s)
    (hfind : s.find name = some none) (hparent : s.parent = some outer)
    (steps : Nat) :
    t.walk name (steps + 1) id = t.walk name steps outer := by
  simp [walk, hs, hfind, hparent]

end Walk

/-- A walk that comes to the global scope ends there. -/
theorem InStep.walk_global (h : t.InStep) (name : String) (steps : Nat) :
    t.walk name (steps + 1) .global
      = some (t.plain.lookup .global name) := by
  obtain ⟨s, hs⟩ := has_iff.mp h.has_global
  have hglobal : t.plain.global = s.plain := scope_plain hs
  have hfind := h.scopes _ _ hs name
  unfold SymbolTable.lookup SymbolTable.scope
  rw [hglobal]
  cases hmeaning : s.plain.find? name with
  | some symbol => exact walk_of_some hs (hmeaning ▸ hfind) steps
  | none =>
    exact walk_of_none hs (hmeaning ▸ hfind) (h.parents _ _ hs) steps

/-- **A name means the same in both tables.** From a scope the walk goes to
the global one, if it has to go on at all. -/
theorem InStep.lookup (h : t.InStep) (hid : t.Has id) (name : String) :
    t.lookup id name = some (t.plain.lookup id name) := by
  cases id with
  | global =>
    obtain ⟨steps, hsteps⟩ := Nat.exists_eq_add_one.mpr h.nonempty
    unfold IndexedTable.lookup
    rw [hsteps]
    exact h.walk_global name steps
  | nested i =>
    obtain ⟨s, hs⟩ := has_iff.mp hid
    have hsize : i + 1 < t.scopes.size := hid
    obtain ⟨steps, hsteps⟩ : ∃ steps, t.scopes.size = steps + 1 + 1 :=
      ⟨t.scopes.size - 2, by omega⟩
    have hfind := h.scopes _ _ hs name
    unfold IndexedTable.lookup
    rw [hsteps]
    cases hmeaning : s.plain.find? name with
    | some symbol =>
      rw [walk_of_some hs (hmeaning ▸ hfind), SymbolTable.lookup,
        scope_plain hs, hmeaning]
      rfl
    | none =>
      have hplain : (t.plain.scope (.nested i)).find? name = none := by
        rw [scope_plain hs, hmeaning]
      rw [walk_of_parent hs (hmeaning ▸ hfind) (h.parents _ _ hs),
        h.walk_global, SymbolTable.lookup_eq_global hplain]

/-! ### Drawing -/

/-- What has a value for each element has the list of the values. -/
theorem mapM_eq_some_map {α β : Type} {f : α → Option β} {g : α → β}
    {as : List α} (h : ∀ a ∈ as, f a = some (g a)) :
    as.mapM f = some (as.map g) := by
  induction as with
  | nil => rfl
  | cons a as ih =>
    obtain ⟨ha, has⟩ := List.forall_mem_cons.mp h
    simp [List.mapM_cons, ha, ih has]

theorem map_ofNumber_range (n : Nat) :
    (List.range (n + 1)).map ScopeId.ofNumber
      = .global :: (List.range n).map .nested := by
  simp [List.range_succ_eq_map, ScopeId.ofNumber, Function.comp_def]

namespace InStep

/-- Inside the global scope are all others. -/
theorem inside_global (h : t.InStep) {n : Nat}
    (hsize : t.scopes.size = n + 1) :
    t.inside .global = (List.range n).map .nested := by
  unfold inside
  rw [hsize, map_ofNumber_range, List.filter_cons_of_neg]
  · refine List.filter_eq_self.mpr fun id hid => ?_
    obtain ⟨i, hi, rfl⟩ := List.mem_map.mp hid
    have hhas : t.Has (.nested i) := by
      show i + 1 < t.scopes.size
      rw [hsize]
      exact Nat.succ_lt_succ (List.mem_range.mp hi)
    rw [h.parent hhas]
    rfl
  · rw [h.parent h.has_global]
    simp [ScopeId.parent?]

/-- Inside any other scope is none. -/
theorem inside_nested (h : t.InStep) (i : Nat) :
    t.inside (.nested i) = [] := by
  refine List.filter_eq_nil_iff.mpr fun id hid => ?_
  obtain ⟨n, hn, rfl⟩ := List.mem_map.mp hid
  have hhas : t.Has (.ofNumber n) := by
    unfold Has
    rw [ScopeId.number_ofNumber]
    exact List.mem_range.mp hn
  rw [h.parent hhas]
  cases n <;> simp [ScopeId.ofNumber, ScopeId.parent?]

theorem draw_nested (h : t.InStep) {i : Nat}
    (hs : t.scope (.nested i) = some s) (levels : Nat) :
    t.draw (levels + 1) (.nested i)
      = some (.node s.plain.owner (SymbolTable.leaves s.plain)) := by
  simp [draw, hs, h.inside_nested, SymbolTable.leaves, IndexedScope.plain,
    Scope.symbols]

/-- **Both tables are drawn in the same way.** -/
theorem outline (h : t.InStep) : t.outline = some t.plain.outline := by
  obtain ⟨n, hsize⟩ := Nat.exists_eq_add_one.mpr h.nonempty
  obtain ⟨first, hfirst⟩ := has_iff.mp h.has_global
  have hglobal : t.plain.global = first.plain := scope_plain hfirst
  have hlength : t.plain.nested.length = n := by simp [plain, hsize]
  -- each of the scopes inside the global one is drawn, one level below it
  let picture (s : Scope) : Outline := .node s.owner (SymbolTable.leaves s)
  have hscopes : ((List.range n).map ScopeId.nested).mapM (t.draw n)
      = some (((List.range n).map ScopeId.nested).map
        fun id => picture (t.plain.scope id)) := by
    refine mapM_eq_some_map fun id hid => ?_
    obtain ⟨i, hi, rfl⟩ := List.mem_map.mp hid
    have hi : i < n := List.mem_range.mp hi
    obtain ⟨s, hs⟩ : ∃ s, t.scope (.nested i) = some s :=
      has_iff.mp (show i + 1 < t.scopes.size by omega)
    obtain ⟨levels, rfl⟩ := Nat.exists_eq_add_one.mpr (Nat.zero_lt_of_lt hi)
    rw [h.draw_nested hs, scope_plain hs]
  have hnested : t.plain.nested
      = (List.range n).map fun i => t.plain.scope (.nested i) := by
    refine List.ext_getElem (by simp [hlength]) fun i hi _ => ?_
    simp [SymbolTable.scope, hi]
  unfold IndexedTable.outline
  rw [hsize]
  simp [draw, hfirst, h.inside_global hsize, hscopes, SymbolTable.outline,
    hglobal, SymbolTable.leaves, hnested, picture, Function.comp_def]
  rfl

end InStep

end IndexedTable

end Primer
