import Primer.Proofs.Text.Decimal

/-!
# The words of a line

A line of operands puts a comma and a blank between any two of them, and a
blank after what stands before them. So a line is read by leaving the commas
out and cutting it at its blanks (`words`), and what it was put together of
comes back, as long as that has no commas and no blanks itself
(`Spells.words_eq`).

The blanks that indent a line are words of it too, empty ones. Numerals are
words (`Decimal.isWord_ofInt64`).
-/

namespace Primer.Text

/-! ## Words and lines -/

/-- **A word**: a text without blanks, commas and line feeds. -/
def IsWord (s : String) : Prop :=
  ∀ c ∈ s.toList, c ≠ ' ' ∧ c ≠ ',' ∧ c ≠ '\n'

instance (s : String) : Decidable (IsWord s) :=
  -- the characters of the text are looked at, not all there are
  List.decidableBAll _ s.toList

/-- A line *spells* words if they stand between its blanks, commas aside. -/
def Spells (line : String) (words : List String) : Prop :=
  line.toList.filter (· != ',') = [' '].intercalate (words.map String.toList)

instance (line : String) (words : List String) :
    Decidable (Spells line words) :=
  inferInstanceAs (Decidable (_ = _))

/-- The words that stand between the blanks of a line, commas aside. -/
def words (line : String) : List String :=
  ((line.toList.filter (· != ',')).splitOn ' ').map String.ofList

/-- What is in a text put together of parts is in the separator or in a part.
-/
theorem mem_of_mem_intercalate {α : Type} {x : α} {sep : List α}
    {parts : List (List α)} (h : x ∈ sep.intercalate parts) :
    x ∈ sep ∨ ∃ part ∈ parts, x ∈ part := by
  induction parts with
  | nil => cases h
  | cons part parts ih =>
    by_cases hne : parts = []
    · rw [hne, List.intercalate_singleton] at h
      exact Or.inr ⟨part, List.mem_cons_self .., h⟩
    · rw [List.intercalate_cons_of_ne_nil hne, List.mem_append,
        List.mem_append] at h
      rcases h with (h | h) | h
      · exact Or.inr ⟨part, List.mem_cons_self .., h⟩
      · exact Or.inl h
      · obtain hsep | ⟨other, hother, hx⟩ := ih h
        · exact Or.inl hsep
        · exact Or.inr ⟨other, List.mem_cons_of_mem _ hother, hx⟩

/-- Parts after an empty one follow without a separator. -/
theorem intercalate_append_nil {α : Type} {sep : List α}
    {parts others : List (List α)} (h : others ≠ []) :
    sep.intercalate (parts ++ [[]]) ++ sep.intercalate others
      = sep.intercalate (parts ++ others) := by
  induction parts with
  | nil => rw [List.nil_append, List.intercalate_singleton]; rfl
  | cons part parts ih =>
    rw [List.cons_append, List.intercalate_cons_of_ne_nil (by simp),
      List.cons_append, List.intercalate_cons_of_ne_nil (by simp [h]),
      List.append_assoc, ih]

namespace Spells

variable {line : String} {ws : List String}

/-- **The words of a line** are those that it spells. -/
theorem words_eq (h : Spells line ws) (hws : ∀ w ∈ ws, IsWord w)
    (hne : ws ≠ []) : words line = ws := by
  have hblank : ∀ w ∈ ws.map String.toList, ' ' ∉ w := by
    intro cs hcs hmem
    obtain ⟨w, hw, rfl⟩ := List.mem_map.mp hcs
    exact (hws w hw ' ' hmem).1 rfl
  rw [words, h, List.splitOn_intercalate ' ' hblank (by simpa using hne),
    List.map_map]
  simp

/-- A line that spells words does not break. -/
theorem newline_notMem (h : Spells line ws) (hws : ∀ w ∈ ws, IsWord w) :
    '\n' ∉ line.toList := by
  intro hline
  have hmem : '\n' ∈ [' '].intercalate (ws.map String.toList) := by
    rw [← h]
    exact List.mem_filter.mpr ⟨hline, rfl⟩
  rcases mem_of_mem_intercalate hmem with hmem | ⟨cs, hcs, hmem⟩
  · exact absurd hmem (by decide)
  · obtain ⟨w, hw, rfl⟩ := List.mem_map.mp hcs
    exact (hws w hw '\n' hmem).2.2 rfl

theorem filter_eq_self {w : String} (h : IsWord w) :
    w.toList.filter (· != ',') = w.toList :=
  List.filter_eq_self.mpr fun c hc => bne_iff_ne.mpr (h c hc).2.1

theorem single {w : String} (h : IsWord w) : Spells w [w] := by
  rw [Spells, filter_eq_self h, List.map_singleton, List.intercalate_singleton]

/-- Words with commas between them are spelled. -/
theorem commas {operands : List String} (h : ∀ w ∈ operands, IsWord w) :
    Spells (", ".intercalate operands) operands := by
  rw [Spells, String.toList_intercalate]
  induction operands with
  | nil => rfl
  | cons w operands ih =>
    obtain ⟨hw, hoperands⟩ := List.forall_mem_cons.mp h
    cases operands with
    | nil =>
      rw [List.map_singleton, List.intercalate_singleton, filter_eq_self hw,
        List.intercalate_singleton]
    | cons v operands =>
      rw [List.map_cons, List.map_cons, List.intercalate_cons_cons,
        List.filter_append, List.filter_append, filter_eq_self hw,
        ← List.map_cons, ih hoperands, List.map_cons,
        List.intercalate_cons_cons]
      rfl

theorem append {rest : String} {vs : List String}
    (h : Spells line (ws ++ [""])) (hrest : Spells rest vs) (hne : vs ≠ []) :
    Spells (line ++ rest) (ws ++ vs) := by
  rw [Spells, String.toList_append, List.filter_append, h, hrest,
    List.map_append, List.map_append]
  exact intercalate_append_nil (mt List.map_eq_nil_iff.mp hne)

end Spells

/-! ## Numerals are words -/

theorem isWord_of_isDigit {s : String}
    (h : ∀ c ∈ s.toList, c.isDigit = true) : IsWord s := by
  intro c hc
  refine ⟨?_, ?_, ?_⟩ <;> rintro rfl <;> exact absurd (h _ hc) (by decide)

theorem Decimal.isWord_ofNat (n : Nat) : IsWord (ofNat n) := by
  refine isWord_of_isDigit fun c hc => ?_
  rw [ofNat, String.toList_ofList] at hc
  exact Nat.isDigit_of_mem_toDigits (by decide) (by decide) hc

/-- The numeral of a machine integer is a word. -/
theorem Decimal.isWord_ofInt64 (n : Int64) : IsWord (ofInt64 n) := by
  obtain ⟨m, ⟨-, htext⟩ | ⟨-, htext⟩⟩ := exists_toList_ofInt64 n
  · refine isWord_of_isDigit fun c hc => ?_
    rw [htext] at hc
    exact Nat.isDigit_of_mem_toDigits (by decide) (by decide) hc
  · intro c hc
    rw [htext] at hc
    rcases List.mem_cons.mp hc with rfl | hc
    · decide
    · have hdigits := isWord_ofNat m
      rw [IsWord, ofNat, String.toList_ofList] at hdigits
      exact hdigits c hc

end Primer.Text
