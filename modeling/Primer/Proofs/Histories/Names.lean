import Primer.Proofs.Histories.Texts

/-!
# The names that a history creates

No number is counted twice, so one would think that no name is made up twice.
But a name is a stem and a number with nothing in between, and the stem of a
label ends in whatever its hint ends in. The hint `body1` with the number 0
and the hint `body` with the number 10 make the same name
(`SymbolTable.name_created_twice`).

This is the only way. If two names are the same, the older one is that of a
label whose hint ends in a digit (`SymbolTable.Numbered.apart`): a number that
comes later is greater, and a stem that does not end in a digit leaves the
number as it is (`append_ofNat_ne_of_lt`). Where no hint ends in a digit, all
names are different, of temporaries, labels and texts alike and over all
scopes (`SymbolTable.creations_distinct`).
-/

namespace Primer

open Text

/-! ## Hints -/

/-- Whether an operation makes up a label with a hint that ends in a
digit. -/
def Operation.HintEndsInDigit : Operation → Prop
  | label _ (some hint) => Ident.EndsInDigit hint
  | _ => False

instance : (op : Operation) → Decidable op.HintEndsInDigit
  | .label _ (some _) => inferInstanceAs (Decidable (Ident.EndsInDigit _))
  | .label _ none | .addScope _ | .declare _ _ _ | .temporary _ _
  | .intern _ => inferInstanceAs (Decidable False)

/-- A point in front of a name does not make it end in a digit. -/
theorem Ident.endsInDigit_of_point {name : Ident}
    (h : Ident.EndsInDigit ("." ++ name)) : Ident.EndsInDigit name := by
  unfold Ident.EndsInDigit at h ⊢
  rw [String.toList_append, List.getLast?_append] at h
  cases hlast : name.toList.getLast? with
  | none =>
    rw [hlast] at h
    exact absurd h (by decide)
  | some c => rwa [hlast] at h

namespace SymbolTable

variable {t t' : SymbolTable} {log : Log} {op : Operation} {answer : Answer}

/-- **A stem ends in a digit only if a hint does.** -/
theorem Making.hintEndsInDigit {stem : String} {id : ScopeId}
    {symbol : String → Symbol} (h : Making t op stem id symbol)
    (hstem : Ident.EndsInDigit stem) : op.HintEndsInDigit := by
  cases h with
  | temporary | constant => exact absurd hstem (by decide)
  | label id hint =>
    cases hint with
    | none => exact absurd hstem (by decide)
    | some hint => exact Ident.endsInDigit_of_point hstem

/-! ## Creations -/

/-- A creation is a name that is made up. -/
theorem Does.made_of_creates (h : Does t op answer t')
    (hlog : Interned log t) (hcreates : log.Creates op) :
    ∃ stem id symbol, Making t op stem id symbol
      ∧ answer = .name (stem ++ Decimal.ofNat t.counter)
      ∧ t' = t.grown stem id symbol := by
  cases h with
  | opened | declared | refused => cases hcreates
  | made hmade => exact ⟨_, _, _, hmade, rfl, rfl⟩
  | recalled hlabel =>
    rw [hlog.labelOf?_eq_none.mpr hcreates] at hlabel
    cases hlabel

/-- **The names that were created so far**: each ends in a number that has
been counted, and if two are the same, the older one is that of a label whose
hint ends in a digit. -/
structure Numbered (log : Log) (t : SymbolTable) : Prop where
  /-- What the table says about texts is what the log says. -/
  interned : Interned log t
  /-- A name has a stem and a number, and only a hint ends in a digit. -/
  numbered : ∀ e ∈ log.creations, ∃ stem, ∃ n < t.counter,
    e.answer = .name (stem ++ Decimal.ofNat n)
      ∧ (Ident.EndsInDigit stem → e.operation.HintEndsInDigit)
  /-- The names are different, digits at the ends of hints apart. -/
  apart : log.creations.Pairwise fun e e' =>
    e.answer = e'.answer → e.operation.HintEndsInDigit

namespace Numbered

theorem start : Numbered [] empty := ⟨.start, nofun, .nil⟩

theorem ne_next (h : Numbered log t) {e : Entry} (he : e ∈ log.creations)
    (hhint : ¬ e.operation.HintEndsInDigit) (stem : String) :
    e.answer ≠ .name (stem ++ Decimal.ofNat t.counter) := by
  obtain ⟨stem', n, hn, hanswer, hdigit⟩ := h.numbered e he
  rw [hanswer]
  exact fun heq => append_ofNat_ne_of_lt (fun hd => hhint (hdigit hd)) hn
    (Answer.name.inj heq)

/-- **Each operation keeps it so.** -/
theorem step (h : Numbered log t) (hdoes : Does t op answer t') :
    Numbered (log ++ [⟨op, answer⟩]) t' := by
  have hinterned := h.interned.step hdoes
  have hcounter := hdoes.counter_le.1
  have hold : ∀ e ∈ log.creations, ∃ stem, ∃ n < t'.counter,
      e.answer = .name (stem ++ Decimal.ofNat n)
        ∧ (Ident.EndsInDigit stem → e.operation.HintEndsInDigit) := by
    intro e he
    obtain ⟨stem, n, hn, hname⟩ := h.numbered e he
    exact ⟨stem, n, Nat.lt_of_lt_of_le hn hcounter, hname⟩
  have hconcat := log.creations_concat ⟨op, answer⟩
  split at hconcat
  · next hcreates =>
    obtain ⟨stem, id, symbol, hmade, rfl, rfl⟩ :=
      hdoes.made_of_creates h.interned hcreates
    refine ⟨hinterned, ?_, ?_⟩
    · rw [hconcat]
      intro e he
      rcases List.mem_append.mp he with he | he
      · exact hold e he
      · rw [List.mem_singleton.mp he]
        exact ⟨stem, t.counter, by simp, rfl, hmade.hintEndsInDigit⟩
    · rw [hconcat, List.pairwise_append]
      refine ⟨h.apart, List.pairwise_singleton _ _, fun e he e' he' heq => ?_⟩
      rw [List.mem_singleton.mp he'] at heq
      exact not_not.mp fun hhint => h.ne_next he hhint stem heq
  · refine ⟨hinterned, ?_, ?_⟩
    · rw [hconcat]
      exact hold
    · rw [hconcat]
      exact h.apart

end Numbered

/-! ## Histories -/

/-- **After any history, the names that were created have numbers that keep
them apart**, as far as hints let them. -/
theorem numbered (ops : List Operation) :
    Numbered (empty.log ops) (empty.after ops) :=
  history_induction .start (fun h _ hdoes => h.step hdoes)
    (along_true empty ops)

end SymbolTable

/-- What was created is in the log. -/
theorem Log.creations_sublist (log : Log) : log.creations.Sublist log := by
  have general : ∀ earlier : Log, (creationsAfter earlier log).Sublist log := by
    induction log with
    | nil => exact fun _ => .slnil
    | cons e log ih =>
      intro earlier
      rw [creationsAfter]
      split
      · exact (ih _).cons_cons e
      · exact (ih _).cons e
  exact general []

theorem SymbolTable.map_operation_log (t : SymbolTable)
    (ops : List Operation) : (t.log ops).map Entry.operation = ops := by
  induction ops generalizing t with
  | nil => rfl
  | cons op ops ih => exact congrArg (List.cons op) (ih _)

namespace SymbolTable

/-- **The names that a history creates are different**, over all scopes and
whether they are those of temporaries, labels or texts, as long as no hint
ends in a digit. If two are the same, the older one is that of a label with
such a hint. -/
theorem creations_distinct (ops : List Operation) :
    (∀ e ∈ (empty.log ops).creations, ∃ name, e.answer = .name name)
    ∧ ((empty.log ops).creations.Pairwise fun e e' =>
      e.answer = e'.answer → e.operation.HintEndsInDigit)
    ∧ ((∀ op ∈ ops, ¬ op.HintEndsInDigit) →
      ((empty.log ops).creations.map Entry.answer).Nodup) := by
  have h := numbered ops
  refine ⟨fun e he => ?_, h.apart, fun hhints => ?_⟩
  · obtain ⟨stem, n, -, hanswer, -⟩ := h.numbered e he
    exact ⟨_, hanswer⟩
  · refine List.pairwise_map.mpr (h.apart.imp_of_mem ?_)
    intro e e' he _ hdigit heq
    have hop := List.mem_map_of_mem (f := Entry.operation)
      ((Log.creations_sublist _).subset he)
    rw [map_operation_log] at hop
    exact hhints _ hop (hdigit heq)

/-- The two texts and the label in between have three different names. -/
theorem creations_distinct_lookalikes :
    (∀ op ∈ lookalikes, ¬ op.HintEndsInDigit)
    ∧ (empty.log lookalikes).creations.map Entry.answer
      = [.name ".str0", .name ".str1", .name ".str2"]
    ∧ ((empty.log lookalikes).creations.map Entry.answer).Nodup := by
  obtain ⟨-, -, hnodup⟩ := creations_distinct lookalikes
  have hhints : ∀ op ∈ lookalikes, ¬ op.HintEndsInDigit := by decide
  exact ⟨hhints, by decide, hnodup hhints⟩

/-- A label with the hint `body1`, nine temporaries, and a label with the hint
`body`. -/
def collision : List Operation :=
  .label .global (some "body1") ::
    (List.replicate 9 (.temporary .global .int)
      ++ [.label .global (some "body")])

/-- **A name that is created twice**: the first and the last of eleven
operations create the name `.body10`. -/
theorem name_created_twice : collision.length = 11
    ∧ (empty.log collision).creations.head?
      = some ⟨.label .global (some "body1"), .name ".body10"⟩
    ∧ (empty.log collision).creations.getLast?
      = some ⟨.label .global (some "body"), .name ".body10"⟩
    ∧ ¬ ((empty.log collision).creations.map Entry.answer).Nodup := by
  refine ⟨by decide, by decide, by decide, fun hnodup => ?_⟩
  -- the first name is among the ten others
  have hlate : Answer.name ".body10"
      ∈ ((empty.log collision).creations.map Entry.answer).tail := by decide
  exact (List.nodup_cons.mp hnodup).1 hlate

end SymbolTable

end Primer
