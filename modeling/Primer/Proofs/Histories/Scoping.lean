import Primer.Proofs.Histories.Basic

/-!
# Names and scopes over a history

What a program sees of a symbol table is simple. In each scope names are
declared, each at most once; a name means what it was declared as in the scope
or else what it was declared as in the global one; and an owner has the scope
that was opened last. All of it can be read off the log of what happened.

A scope holds more than that. Temporaries, labels and texts go into the same
list, under names that nobody checks, and a name means the newest symbol. They
do not show, for a name that is made up begins with a sigil and a *plain* name
does not. `Scope.Shows` says of a scope that it shows some declarations and
nothing else to those who ask for plain names, and each way in which a scope
grows has its lemma. Over a whole table this is `SymbolTable.Scoped`, and what
the operations see of the table follows from it.
-/

namespace Primer

open Text

/-! ## One scope -/

namespace Scope

/-- **A scope shows these declarations** and no others, to those who ask for
plain names. -/
structure Shows (s : Scope) (declared : List Symbol) : Prop where
  /-- A name that was declared means its declaration. -/
  found : ∀ d ∈ declared, s.find? d.name = some d
  /-- A plain name that was not declared means nothing. -/
  unfound : ∀ name, Ident.Plain name → (∀ d ∈ declared, d.name ≠ name) →
    s.find? name = none
  /-- The symbols with plain names are the declarations, in order. -/
  kept : s.symbols.filter (Ident.Plain ·.name) = declared
  /-- The parameters are those that were declared, in order. -/
  formals : s.formals = declared.filter (·.kind == .formal)

theorem shows_empty (owner : String) : (empty owner).Shows [] :=
  ⟨nofun, fun _ _ _ => rfl, rfl, rfl⟩

namespace Shows

variable {s : Scope} {declared : List Symbol} {symbol : Symbol}

theorem plain (h : s.Shows declared) {d : Symbol} (hd : d ∈ declared) :
    Ident.Plain d.name := by
  rw [← h.kept] at hd
  simpa using (List.mem_filter.mp hd).2

/-- **A plain name means what it was declared as.** -/
theorem find?_eq (h : s.Shows declared) {name : String}
    (hname : Ident.Plain name) :
    s.find? name = declared.find? (·.name == name) := by
  cases hfind : declared.find? (·.name == name) with
  | some d =>
    obtain rfl : d.name = name := by simpa using List.find?_some hfind
    exact h.found d (List.mem_of_find?_eq_some hfind)
  | none =>
    have hnone := List.find?_eq_none.mp hfind
    exact h.unfound name hname fun d hd => by simpa using hnone d hd

/-- A plain name has a meaning if it was declared. -/
theorem isSome_find?_iff (h : s.Shows declared) {name : String}
    (hname : Ident.Plain name) :
    (s.find? name).isSome ↔ ∃ d ∈ declared, d.name = name := by
  constructor
  · intro hsome
    by_cases hex : ∃ d ∈ declared, d.name = name
    · exact hex
    · rw [h.unfound name hname fun d hd heq => hex ⟨d, hd, heq⟩] at hsome
      cases hsome
  · rintro ⟨d, hd, rfl⟩
    rw [h.found d hd]
    rfl

/-- **A plain name that is declared shows.** -/
theorem declare (h : s.Shows declared) (hname : Ident.Plain symbol.name)
    (hnew : s.find? symbol.name = none) :
    (s.push symbol).Shows (declared ++ [symbol]) where
  found := by
    intro d hd
    rcases List.mem_append.mp hd with hd | hd
    · have hne : symbol.name ≠ d.name := fun heq => by
        rw [heq, h.found d hd] at hnew
        cases hnew
      rw [find?_push_of_ne s hne]
      exact h.found d hd
    · rw [List.mem_singleton.mp hd]
      exact find?_push_self s symbol
  unfound := by
    intro name hplain hno
    rw [find?_push_of_ne s (hno symbol (by simp))]
    exact h.unfound name hplain fun d hd => hno d (List.mem_append_left _ hd)
  kept := by
    rw [symbols_push, List.filter_append, h.kept]
    simp [hname]
  formals := by
    have hformals := h.formals
    unfold Scope.formals at hformals ⊢
    rw [symbols_push, List.filter_append, List.filter_append, hformals]

/-- **A name that is made up does not show.** -/
theorem make (h : s.Shows declared) (hname : ¬ Ident.Plain symbol.name)
    (hkind : symbol.kind ≠ .formal) : (s.push symbol).Shows declared where
  found := by
    intro d hd
    have hne : symbol.name ≠ d.name := fun heq => hname (heq ▸ h.plain hd)
    rw [find?_push_of_ne s hne]
    exact h.found d hd
  unfound := by
    intro name hplain hno
    have hne : symbol.name ≠ name := fun heq => hname (heq ▸ hplain)
    rw [find?_push_of_ne s hne]
    exact h.unfound name hplain hno
  kept := by
    rw [symbols_push, List.filter_append, h.kept]
    simp [hname]
  formals := by
    have hformals := h.formals
    unfold Scope.formals at hformals ⊢
    rw [symbols_push, List.filter_append, hformals]
    simp [hkind]

end Shows

end Scope

/-! ## All scopes -/

namespace SymbolTable

instance (t : SymbolTable) : (id : ScopeId) → Decidable (t.Has id)
  | .global => inferInstanceAs (Decidable True)
  | .nested _ => inferInstanceAs (Decidable (_ < _))

/-- **Whether an operation is proper** on a table: it works in a scope of the
table, and what it declares has a plain name. -/
def Proper (t : SymbolTable) : Operation → Prop
  | .declare id name _ => t.Has id ∧ Ident.Plain name
  | .temporary id _ | .label id _ => t.Has id
  | .addScope _ | .intern _ => True

instance (t : SymbolTable) : (op : Operation) → Decidable (t.Proper op)
  | .declare _ _ _ => inferInstanceAs (Decidable (_ ∧ _))
  | .temporary id _ | .label id _ => inferInstanceAs (Decidable (t.Has id))
  | .addScope _ | .intern _ => inferInstanceAs (Decidable True)

/-- **What the scopes of a table show is what its log says.** -/
structure Scoped (log : Log) (t : SymbolTable) : Prop where
  /-- Each scope shows what was declared in it. -/
  shows : ∀ id, t.Has id → (t.scope id).Shows (log.declarations id)
  /-- Nothing was declared in a scope that is not there yet. -/
  absent : ∀ id, ¬ t.Has id → log.declarations id = []
  /-- An owner has the scope that was opened last. -/
  opened : ∀ owner, t.scopeOf? owner = log.openings.reverse.lookup owner

variable {t t' : SymbolTable} {log : Log} {op : Operation} {answer : Answer}

theorem Making.not_plain {stem : String} {id : ScopeId}
    {symbol : String → Symbol} (h : Making t op stem id symbol) (n : Nat) :
    ¬ Ident.Plain (stem ++ Decimal.ofNat n) := by
  cases h with
  | temporary => exact (Made.single stem_temporary n).not_plain
  | constant => exact (Made.single stem_constant n).not_plain
  | label => exact fun hplain => hplain.2 (Ident.beginsWith_point _ _)

theorem Making.symbol {stem : String} {id : ScopeId}
    {symbol : String → Symbol} (h : Making t op stem id symbol)
    (name : String) :
    (symbol name).name = name ∧ (symbol name).kind ≠ .formal := by
  cases h <;> exact ⟨rfl, SymbolKind.noConfusion⟩

theorem Making.has {stem : String} {id : ScopeId}
    {symbol : String → Symbol} (h : Making t op stem id symbol)
    (hproper : t.Proper op) : t.Has id := by
  cases h with
  | temporary | label => exact hproper
  | constant => trivial

/-! ### A scope more -/

/-- The last scope of an owner, after one more. -/
theorem lastOwned?_concat (owner : String) (ss : List Scope) (s : Scope) :
    lastOwned? owner (ss ++ [s])
      = if s.owner = owner then some ss.length else lastOwned? owner ss := by
  induction ss with
  | nil => rfl
  | cons s' ss ih =>
    rw [List.cons_append, lastOwned?, ih, lastOwned?]
    by_cases hs : s.owner = owner
    · simp [hs]
    · simp [hs]

theorem scopeOf?_addScope (t : SymbolTable) (owner owner' : String) :
    (t.addScope owner).2.scopeOf? owner' = if owner = owner'
      then some (.nested t.nested.length) else t.scopeOf? owner' := by
  show (lastOwned? owner' (t.nested ++ [.empty owner])).map _ = _
  rw [lastOwned?_concat]
  show (if owner = owner' then _ else _ : Option Nat).map _ = _
  split <;> rfl

/-- A scope that is opened comes after those that are there. -/
theorem has_addScope {owner : String} {id : ScopeId} :
    (t.addScope owner).2.Has id
      ↔ t.Has id ∨ id = .nested t.nested.length := by
  cases id with
  | global => exact iff_of_true trivial (.inl trivial)
  | nested i =>
    show i < (t.nested ++ [_]).length ↔ i < _ ∨ _
    rw [List.length_append, List.length_singleton, ScopeId.nested.injEq]
    omega

/-- The scopes that are there stay what they are. -/
theorem scope_addScope_of_has {id : ScopeId} (h : t.Has id)
    (owner : String) : (t.addScope owner).2.scope id = t.scope id := by
  cases id with
  | global => rfl
  | nested i =>
    show (t.nested ++ [_])[i]?.getD _ = t.nested[i]?.getD _
    rw [List.getElem?_append_left h]

theorem scope_addScope_self (t : SymbolTable) (owner : String) :
    (t.addScope owner).2.scope (.nested t.nested.length) = .empty owner := by
  show (t.nested ++ [_])[t.nested.length]?.getD _ = _
  rw [List.getElem?_concat_length, Option.getD_some]

theorem has_modify {id id' : ScopeId} {change : Scope → Scope} :
    (t.modify id change).Has id' ↔ t.Has id' := by
  cases id' with
  | global => exact Iff.rfl
  | nested i => rw [Has, Has, length_nested_modify]

namespace Scoped

/-- At the start there is one scope, and nothing was declared. -/
theorem start : Scoped [] empty where
  shows := by
    intro id hid
    cases id with
    | global => exact Scope.shows_empty _
    | nested i => cases hid
  absent _ _ := rfl
  opened _ := rfl

/-- A change in one scope, and an entry that says what it shows then. -/
theorem modify (h : Scoped log t) {id : ScopeId} {e : Entry}
    {change : Scope → Scope} (hhas : t.Has id)
    (howner : ∀ s, (change s).owner = s.owner) (hopened : e.opened? = none)
    (hother : ∀ id', id ≠ id' → e.declaredIn? id' = none)
    (hshows : (change (t.scope id)).Shows
      (log.declarations id ++ (e.declaredIn? id).toList)) :
    Scoped (log ++ [e]) (t.modify id change) where
  shows := by
    intro id' hid'
    rw [Log.declarations_concat]
    by_cases heq : id = id'
    · rw [← heq, scope_modify_self hhas]
      exact hshows
    · rw [scope_modify_of_ne t heq, hother id' heq]
      simpa using h.shows id' (has_modify.mp hid')
  absent := by
    intro id' hid'
    have hnot : ¬ t.Has id' := fun hmod => hid' (has_modify.mpr hmod)
    have hne : id ≠ id' := fun heq => hnot (heq ▸ hhas)
    rw [Log.declarations_concat, h.absent id' hnot, hother id' hne]
    rfl
  opened := by
    intro owner
    rw [scopeOf?_modify t id howner, Log.openings_concat, hopened, h.opened]
    simp

/-- An entry that shows nothing, over the same table. -/
theorem same (h : Scoped log t) {e : Entry} (hopened : e.opened? = none)
    (hdeclared : ∀ id, e.declaredIn? id = none) :
    Scoped (log ++ [e]) t := by
  have hlog (id : ScopeId) :
      Log.declarations (log ++ [e]) id = log.declarations id := by
    rw [Log.declarations_concat, hdeclared]
    exact List.append_nil _
  constructor
  · intro id hid
    rw [hlog]
    exact h.shows id hid
  · intro id hid
    rw [hlog]
    exact h.absent id hid
  · intro owner
    rw [Log.openings_concat, hopened, h.opened]
    simp

/-- A scope that is opened. -/
theorem opens (h : Scoped log t) (owner : String) :
    Scoped (log ++ [⟨.addScope owner, .scope (.nested t.nested.length)⟩])
      (t.addScope owner).2 := by
  have hlog (id : ScopeId) : Log.declarations
      (log ++ [⟨.addScope owner, .scope (.nested t.nested.length)⟩]) id
      = log.declarations id := by
    rw [Log.declarations_concat]
    exact List.append_nil _
  constructor
  · intro id hid
    rw [hlog]
    rcases has_addScope.mp hid with hold | rfl
    · rw [scope_addScope_of_has hold]
      exact h.shows id hold
    · rw [scope_addScope_self, h.absent _ (Nat.lt_irrefl _)]
      exact Scope.shows_empty owner
  · intro id hid
    rw [hlog]
    exact h.absent id fun hhas => hid (has_addScope.mpr (.inl hhas))
  · intro owner'
    rw [Log.openings_concat, scopeOf?_addScope, h.opened]
    show _ = ((log.openings ++ [(owner, _)]).reverse).lookup owner'
    rw [List.reverse_concat, List.lookup_cons]
    by_cases heq : owner = owner'
    · simp [heq]
    · rw [if_neg heq, beq_eq_false_iff_ne.mpr (Ne.symm heq)]

/-- **Each proper operation keeps it so.** -/
theorem step (h : Scoped log t) (hproper : t.Proper op)
    (hdoes : Does t op answer t') : Scoped (log ++ [⟨op, answer⟩]) t' := by
  cases hdoes with
  | opened owner => exact h.opens owner
  | refused | recalled => exact h.same rfl fun _ => rfl
  | @declared id name what hnew =>
    have hentry := Entry.declaredIn?_declare id id name what
    refine h.modify hproper.1 (fun _ => rfl) rfl ?_ ?_
    · exact fun id' hne => if_neg hne
    · rw [hentry, if_pos rfl]
      refine (h.shows id hproper.1).declare ?_ ?_
      · rw [what.name_symbol]
        exact hproper.2
      · rw [what.name_symbol]
        exact hnew
  | @made _ stem id symbol hmade =>
    have hentry : ∀ id', Entry.declaredIn? id'
        ⟨op, .name (stem ++ Decimal.ofNat t.counter)⟩ = none := by
      intro id'
      cases hmade <;> rfl
    have ⟨hname, hkind⟩ := hmade.symbol (stem ++ Decimal.ofNat t.counter)
    -- the scopes do not depend on the counter
    have hcounted : Scoped log { t with counter := t.counter + 1 } :=
      ⟨h.shows, h.absent, h.opened⟩
    refine hcounted.modify (hmade.has hproper) (fun _ => rfl) ?_
      (fun id' _ => hentry id') ?_
    · cases hmade <;> rfl
    · rw [hentry, Option.toList_none, List.append_nil]
      refine (hcounted.shows id (hmade.has hproper)).make ?_ hkind
      rw [hname]
      exact hmade.not_plain t.counter

end Scoped

/-! ## What the operations see -/

namespace Scoped

/-- **A scope refuses what it shows**, and declares everything else. -/
theorem perform_declare (h : Scoped log t) {id : ScopeId} {name : String}
    (what : Declaration) (hproper : t.Proper (.declare id name what)) :
    (∃ d ∈ log.declarations id, d.name = name)
        ∧ (Operation.declare id name what).perform t
          = (.refused (.alreadyDeclared name), t)
      ∨ (∀ d ∈ log.declarations id, d.name ≠ name)
        ∧ ((Operation.declare id name what).perform t).1 = .done := by
  have hiff := (h.shows id hproper.1).isSome_find?_iff hproper.2
  have hdoes := t.does_perform (.declare id name what)
  generalize (Operation.declare id name what).perform t = result at hdoes ⊢
  obtain ⟨answer, t'⟩ := result
  cases hdoes with
  | declared _ hnew =>
    right
    rw [hnew] at hiff
    exact ⟨fun d hd heq => by simpa using hiff.mpr ⟨d, hd, heq⟩, rfl⟩
  | refused _ hold =>
    left
    rw [hold] at hiff
    exact ⟨hiff.mp rfl, rfl⟩
  | made hmade => cases hmade

/-- **A plain name means what the log says.** -/
theorem lookup_eq (h : Scoped log t) {id : ScopeId} (hid : t.Has id)
    {name : String} (hname : Ident.Plain name) :
    t.lookup id name = log.meaning id name := by
  have hglobal : t.global.find? name = _ :=
    (h.shows .global trivial).find?_eq hname
  unfold lookup Log.meaning
  rw [(h.shows id hid).find?_eq hname]
  exact hglobal ▸ rfl

end Scoped

/-- **After any history of proper operations, a table shows what its log
says.** -/
theorem scoped_of_proper {ops : List Operation}
    (h : empty.Along Proper ops) :
    Scoped (empty.log ops) (empty.after ops) :=
  history_induction .start (fun h hproper hdoes => h.step hproper hdoes) h

end SymbolTable

end Primer
