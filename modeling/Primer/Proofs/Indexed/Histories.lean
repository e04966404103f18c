import Primer.Proofs.Indexed.Tables

/-!
# Histories of an indexed table

The operations of a history (`Operation`) are performed on an indexed table. If
each works in a scope that is there, none breaks off, and the log is that of
the symbol table (`IndexedTable.InStep.history`). The indexes, the maps and the
stored scopes around a scope stay in step all the while, in whatever order
names are declared and made up in whatever scopes.

So what a symbol table shows by its log (`SymbolTable.Scoped`) is what the
operations on an indexed table see.
-/

namespace Primer

open Text

/-- **Performs an operation on an indexed table.** -/
def Operation.performIndexed (t : IndexedTable) :
    Operation → Attempt (Answer × IndexedTable)
  | addScope owner => some ((t.addScope owner).map .scope id)
  | declare scope name what => do
    match ← t.declare scope (what.symbol name) with
    | .ok t' => return (.done, t')
    | .error error => return (.refused error, t)
  | temporary scope ty =>
    (t.freshTemporary scope ty).map (Prod.map .name id)
  | label scope hint => (t.freshLabel scope hint).map (Prod.map .name id)
  | intern text => (t.intern text).map (Prod.map .name id)

/-- Whether the scope of an operation is one of so many. -/
def Operation.Within (scopes : Nat) : Operation → Prop
  | declare id _ _ | temporary id _ | label id _ => id.number < scopes
  | addScope _ | intern _ => True

instance (scopes : Nat) : (op : Operation) → Decidable (op.Within scopes)
  | .declare _ _ _ | .temporary _ _ | .label _ _ =>
    inferInstanceAs (Decidable (_ < _))
  | .addScope _ | .intern _ => inferInstanceAs (Decidable True)

/-- Whether an operation declares a plain name, if it declares one. -/
def Operation.IsPlain : Operation → Prop
  | declare _ name _ => Ident.Plain name
  | addScope _ | temporary _ _ | label _ _ | intern _ => True

instance : (op : Operation) → Decidable op.IsPlain
  | .declare _ name _ => inferInstanceAs (Decidable (Ident.Plain name))
  | .addScope _ | .temporary _ _ | .label _ _ | .intern _ =>
    inferInstanceAs (Decidable True)

/-- How many scopes there are after an operation. -/
def Operation.scopesAfter (scopes : Nat) : Operation → Nat
  | addScope _ => scopes + 1
  | declare _ _ _ | temporary _ _ | label _ _ | intern _ => scopes

/-- **Whether operations work in scopes that are there**, if there are so many
before the first of them. -/
def Operation.AllWithin (scopes : Nat) : List Operation → Prop
  | [] => True
  | op :: ops => op.Within scopes ∧ AllWithin (op.scopesAfter scopes) ops

instance decidableAllWithin (scopes : Nat) :
    (ops : List Operation) → Decidable (Operation.AllWithin scopes ops)
  | [] => inferInstanceAs (Decidable True)
  | op :: ops =>
    have : Decidable (Operation.AllWithin (op.scopesAfter scopes) ops) :=
      decidableAllWithin (op.scopesAfter scopes) ops
    inferInstanceAs (Decidable (op.Within scopes ∧ _))

namespace IndexedTable

/-- **The log of some operations** and the table after them. -/
def history (t : IndexedTable) : List Operation → Attempt (Log × IndexedTable)
  | [] => some ([], t)
  | op :: ops => do
    let (answer, t) ← op.performIndexed t
    let (log, t) ← t.history ops
    return (⟨op, answer⟩ :: log, t)

variable {t t' : IndexedTable} {op : Operation} {ops : List Operation}

theorem Matches.map {α β : Type} {result : Attempt (α × IndexedTable)}
    {expected : α × SymbolTable} (h : Matches result expected) (f : α → β) :
    Matches (result.map (Prod.map f id)) (expected.map f id) := by
  obtain ⟨t, rfl, ht, hplain⟩ := h
  exact ⟨t, rfl, ht, hplain⟩

/-- **A declaration succeeds or changes nothing**, as it does on the symbol
table. -/
theorem InStep.perform_declare (h : t.InStep) {scope : ScopeId}
    (hscope : t.Has scope) (name : String) (what : Declaration) :
    (∃ t', (Operation.declare scope name what).performIndexed t
          = some (.done, t')
        ∧ t'.InStep ∧ (Operation.declare scope name what).perform t.plain
          = (.done, t'.plain))
      ∨ ∃ error, (Operation.declare scope name what).performIndexed t
          = some (.refused error, t)
        ∧ (Operation.declare scope name what).perform t.plain
          = (.refused error, t.plain) := by
  have hkind : ∀ text, (what.symbol name).kind ≠ .constant text := by
    intro text
    cases what <;> exact SymbolKind.noConfusion
  simp only [Operation.performIndexed, Operation.perform]
  obtain ⟨t', hdeclare, ht', hplain⟩ | ⟨error, hdeclare, hplain⟩ :=
    h.declare hscope hkind
  · rw [hdeclare, hplain]
    exact .inl ⟨t', rfl, ht', rfl⟩
  · rw [hdeclare, hplain]
    exact .inr ⟨error, rfl, rfl⟩

/-- **An operation is performed** as it is on the symbol table. -/
theorem InStep.perform (h : t.InStep) (hop : op.Within t.scopes.size) :
    Matches (op.performIndexed t) (op.perform t.plain) := by
  cases op with
  | addScope owner => exact (h.addScope owner).map Answer.scope
  | temporary scope ty => exact (h.freshTemporary hop ty).map Answer.name
  | label scope hint => exact (h.freshLabel hop hint).map Answer.name
  | intern text => exact (h.intern text).map Answer.name
  | declare scope name what =>
    obtain ⟨t', hindexed, ht', hplain⟩ | ⟨error, hindexed, hplain⟩ :=
      h.perform_declare hop name what
    · rw [hindexed, hplain]
      exact ⟨t', rfl, ht', rfl⟩
    · rw [hindexed, hplain]
      exact ⟨t, rfl, h, rfl⟩

/-- An operation opens a scope or leaves their number as it is. -/
theorem length_nested_of_does {t t' : SymbolTable} {answer : Answer}
    (h : t.Does op answer t') :
    t'.nested.length + 1 = op.scopesAfter (t.nested.length + 1) := by
  cases h with
  | opened owner =>
    simp [SymbolTable.addScope, Operation.scopesAfter]
  | declared => rw [SymbolTable.length_nested_modify, Operation.scopesAfter]
  | refused | recalled => rfl
  | made hmade =>
    rw [SymbolTable.grown, SymbolTable.length_nested_modify]
    cases hmade <;> rfl

theorem InStep.size_eq (h : t.InStep) :
    t.scopes.size = t.plain.nested.length + 1 := by
  have := h.nonempty
  simp [plain]
  omega

/-- **A history is what it is on the symbol table**, if all its operations
work in scopes that are there. -/
theorem InStep.history (h : t.InStep)
    (hops : Operation.AllWithin t.scopes.size ops) :
    Matches (t.history ops) (t.plain.log ops, t.plain.after ops) := by
  induction ops generalizing t with
  | nil => exact ⟨t, rfl, h, rfl⟩
  | cons op ops ih =>
    obtain ⟨t', hperform, ht', hplain⟩ := h.perform hops.1
    have hsize : t'.scopes.size = op.scopesAfter t.scopes.size := by
      rw [ht'.size_eq, hplain, h.size_eq]
      exact length_nested_of_does (t.plain.does_perform op)
    obtain ⟨t'', hhistory, ht'', hplain'⟩ := ih ht' (hsize ▸ hops.2)
    refine ⟨t'', ?_, ht'', ?_⟩
    · simp [IndexedTable.history, SymbolTable.log, hperform, hhistory, hplain]
    · rw [hplain', hplain, SymbolTable.after]

/-- Plain operations in scopes that are there are proper. -/
theorem along_proper {t : SymbolTable}
    (hops : Operation.AllWithin (t.nested.length + 1) ops)
    (hplain : ∀ op ∈ ops, op.IsPlain) : t.Along SymbolTable.Proper ops := by
  induction ops generalizing t with
  | nil => trivial
  | cons op ops ih =>
    obtain ⟨hop, hrest⟩ := List.forall_mem_cons.mp hplain
    have hhas : ∀ id : ScopeId,
        id.number < t.nested.length + 1 → t.Has id := by
      intro id hid
      cases id with
      | global => trivial
      | nested i => exact Nat.lt_of_succ_lt_succ hid
    refine ⟨?_, ih (length_nested_of_does (t.does_perform op) ▸ hops.2) hrest⟩
    cases op with
    | declare id _ _ => exact ⟨hhas id hops.1, hop⟩
    | temporary id _ | label id _ => exact hhas id hops.1
    | addScope | intern => trivial

/-- A declaration is refused if the log has one of the name, and it succeeds if
the log has none. -/
theorem InStep.perform_declare_scoped (h : t.InStep) {log : Log}
    (hscoped : SymbolTable.Scoped log t.plain) {scope : ScopeId}
    (hscope : t.Has scope) {name : String} (hname : Ident.Plain name)
    (what : Declaration) :
    (∃ d ∈ log.declarations scope, d.name = name)
        ∧ (Operation.declare scope name what).performIndexed t
          = some (.refused (.alreadyDeclared name), t)
      ∨ (∀ d ∈ log.declarations scope, d.name ≠ name)
        ∧ ∃ t', (Operation.declare scope name what).performIndexed t
          = some (.done, t') := by
  have hproper : t.plain.Proper (.declare scope name what) :=
    ⟨h.has_plain.mpr hscope, hname⟩
  obtain ⟨t', hindexed, -, hplain⟩ | ⟨error, hindexed, hplain⟩ :=
    h.perform_declare hscope name what
  · rcases hscoped.perform_declare what hproper with
      ⟨-, hrefused⟩ | ⟨hnew, -⟩
    · cases hplain.symm.trans hrefused
    · exact .inr ⟨hnew, t', hindexed⟩
  · rcases hscoped.perform_declare what hproper with
      ⟨hold, hrefused⟩ | ⟨-, hdone⟩
    · cases hplain.symm.trans hrefused
      exact .inl ⟨hold, hindexed⟩
    · rw [hplain] at hdone
      cases hdone

/-- **Names in an indexed table are what they were declared as.** After any
history in which names that are declared are plain, whatever was made up and
opened in between, the table is in step, and no operation has broken off. A
scope refuses to declare a plain name if and only if the name was declared
there before, and refusing changes nothing; a plain name means what it was
declared as in the scope, or else what it was declared as in the global scope,
or else nothing; an owner has the scope that was opened for it last; and the
symbols with plain names and the parameters of a scope are those that were
declared, in the order in which they were. -/
theorem history_scoping {ops : List Operation}
    (hwithin : Operation.AllWithin 1 ops)
    (hplain : ∀ op ∈ ops, op.IsPlain) :
    ∃ log t, empty.history ops = some (log, t) ∧ t.InStep
      ∧ log = SymbolTable.empty.log ops
      ∧ (∀ id name what, t.Has id → Ident.Plain name →
        let op := Operation.declare id name what
        (op.performIndexed t = some (.refused (.alreadyDeclared name), t)
            ↔ ∃ d ∈ log.declarations id, d.name = name)
          ∧ ((∀ d ∈ log.declarations id, d.name ≠ name) →
            ∃ t', op.performIndexed t = some (.done, t')))
      ∧ (∀ id name, t.Has id → Ident.Plain name →
        t.lookup id name = some (log.meaning id name))
      ∧ (∀ owner, t.scopeOf? owner = log.openings.reverse.lookup owner)
      ∧ ∀ id, t.Has id →
        (∃ symbols, t.symbols id = some symbols
          ∧ symbols.filter (Ident.Plain ·.name) = log.declarations id)
        ∧ t.formals id
          = some ((log.declarations id).filter (·.kind == .formal)) := by
  obtain ⟨t, hhistory, ht, hafter⟩ := inStep_empty.history hwithin
  have hscoped : SymbolTable.Scoped (SymbolTable.empty.log ops) t.plain := by
    rw [hafter]
    exact SymbolTable.scoped_of_proper (along_proper hwithin hplain)
  have hhas : ∀ id, t.Has id → t.plain.Has id := fun id => ht.has_plain.mpr
  refine ⟨SymbolTable.empty.log ops, t, hhistory, ht, rfl,
    fun id name what hid hname => ?_, fun id name hid hname => ?_,
    fun owner => ?_, fun id hid => ?_⟩
  · rcases ht.perform_declare_scoped hscoped hid hname what with
      ⟨⟨d, hd, hold⟩, hrefused⟩ | ⟨hnew, t', hdone⟩
    · exact ⟨iff_of_true hrefused ⟨d, hd, hold⟩, fun hnew =>
        absurd hold (hnew d hd)⟩
    · refine ⟨iff_of_false ?_ fun ⟨d, hd, hold⟩ => hnew d hd hold,
        fun _ => ⟨t', hdone⟩⟩
      rw [hdone]
      exact nofun
  · rw [ht.lookup hid, hscoped.lookup_eq (hhas id hid) hname]
  · rw [ht.scopeOf?, hscoped.opened]
  · have hshows := hscoped.shows id (hhas id hid)
    exact ⟨⟨_, InStep.symbols hid, hshows.kept⟩,
      by rw [InStep.formals hid, hshows.formals]⟩

/-- A global variable, a parameter of the same name, and a second scope for
the owner of the first. -/
def shadowing : List Operation :=
  [.declare .global "x" (.introduced .int), .addScope "f",
    .temporary (.nested 0) .int, .declare (.nested 0) "x" (.formal .str),
    .declare (.nested 0) "x" .label, .intern "x", .addScope "f"]

/-- The parameter is found in its scope and the variable in the other one, the
parameter cannot be declared again, and the second scope is that of the
owner. -/
theorem history_scoping_shadowing : ∃ log t,
    empty.history shadowing = some (log, t)
      ∧ t.lookup (.nested 0) "x" = some (.ok (.formal "x" .str))
      ∧ t.lookup (.nested 1) "x" = some (.ok (.introduced "x" .int))
      ∧ t.lookup (.nested 1) "y" = some (.error (.notDeclared "y"))
      ∧ (Operation.declare (.nested 0) "x" (.introduced .int)).performIndexed t
        = some (.refused (.alreadyDeclared "x"), t)
      ∧ t.scopeOf? "f" = some (.nested 1)
      ∧ t.formals (.nested 0) = some [.formal "x" .str] := by
  have hwithin : Operation.AllWithin 1 shadowing := by decide
  have hplain : ∀ op ∈ shadowing, op.IsPlain := by decide
  obtain ⟨log, t, hhistory, ht, hlog, hdeclare, hlookup, hopened, hkept⟩ :=
    history_scoping hwithin hplain
  have howned : t.scopeOf? "f" = some (.nested 1) := by
    rw [hopened, hlog]
    decide
  have hsecond : t.Has (.nested 1) := by
    rw [ht.scopeOf?] at howned
    exact ht.has_plain.mp (SymbolTable.has_of_scopeOf? howned)
  have hfirst : t.Has (.nested 0) := Nat.lt_of_succ_lt hsecond
  refine ⟨log, t, hhistory, ?_, ?_, ?_, ?_, howned, ?_⟩
  · rw [hlookup _ _ hfirst (by decide), hlog]
    decide
  · rw [hlookup _ _ hsecond (by decide), hlog]
    decide
  · rw [hlookup _ _ hsecond (by decide), hlog]
    decide
  · refine (hdeclare _ _ _ hfirst (by decide)).1.mpr ?_
    rw [hlog]
    decide
  · rw [(hkept _ hfirst).2, hlog]
    decide

end IndexedTable

end Primer
