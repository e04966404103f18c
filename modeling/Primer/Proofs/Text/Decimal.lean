import Mathlib.Data.List.TakeWhile
import Primer.Machine.Value

/-!
# Numerals read back

An integer has one numeral that is written and many that are read. A numeral
that is read may have blanks around it, a plus sign, a minus sign before zero
and zeros that say nothing. Without all of these it is `plain`, and the plain
numeral is the one that is written.

So the way from an integer to its numeral and back is exact, also if blanks
are put around the numeral (`toInteger?_append`), and the way from a numeral to
its integer and back makes it plain (`ofInt64_of_toInteger?`).
-/

namespace Primer.Text

namespace Decimal

/-! ## Runs of digits -/

/-- Digits without the zeros that say nothing: those before another digit. -/
def withoutZeros : List Char → List Char
  | '0' :: c :: rest => withoutZeros (c :: rest)
  | digits => digits

theorem value_lt_of_isDigit {c : Char} (h : c.isDigit = true) :
    c.toNat - '0'.toNat < 10 := by
  have hc := Char.isDigit_iff_toNat.mp h
  have hnine : '9'.toNat = '0'.toNat + 9 := rfl
  omega

/-- A digit is the numeral of its value. -/
theorem toDigits_of_isDigit {c : Char} (h : c.isDigit = true) :
    Nat.toDigits 10 (c.toNat - '0'.toNat) = [c] := by
  have hlt := value_lt_of_isDigit h
  have hle := (Char.isDigit_iff_toNat.mp h).1
  have hzero : '0'.toNat = 48 := rfl
  have hchar : Nat.digitChar (c.toNat - '0'.toNat) = c := by
    rw [← Char.toNat_inj, Nat.toNat_digitChar_of_lt_ten hlt]
    omega
  rw [Nat.toDigits_of_lt_base hlt, hchar]

/-- **Digits after those of a positive number** make its numeral longer. -/
theorem toDigits_ofDigitChars_of_pos {digits : List Char}
    (h : ∀ c ∈ digits, c.isDigit = true) {n : Nat} (hn : 0 < n) :
    Nat.toDigits 10 (Nat.ofDigitChars 10 digits n)
      = Nat.toDigits 10 n ++ digits := by
  induction digits generalizing n with
  | nil => rw [Nat.ofDigitChars_nil, List.append_nil]
  | cons c digits ih =>
    obtain ⟨hc, hdigits⟩ := List.forall_mem_cons.mp h
    rw [Nat.ofDigitChars_cons, ih hdigits (by omega),
      ← Nat.toDigits_append_toDigits (by decide) hn (value_lt_of_isDigit hc),
      toDigits_of_isDigit hc, List.append_assoc]
    rfl

/-- **A run of digits is the numeral of its value**, but for the zeros that
say nothing. -/
theorem toDigits_ofDigitChars {digits : List Char} (hne : digits ≠ [])
    (h : ∀ c ∈ digits, c.isDigit = true) :
    Nat.toDigits 10 (Nat.ofDigitChars 10 digits 0) = withoutZeros digits := by
  induction digits using withoutZeros.induct with
  | case1 c rest ih =>
    rw [Nat.ofDigitChars_cons, withoutZeros]
    exact ih (List.cons_ne_nil _ _) (List.forall_mem_cons.mp h).2
  | case2 digits hzero =>
    obtain ⟨c, rest, rfl⟩ := List.exists_cons_of_ne_nil hne
    obtain ⟨hc, hrest⟩ := List.forall_mem_cons.mp h
    rw [Nat.ofDigitChars_cons, Nat.mul_zero, Nat.zero_add, withoutZeros]
    · cases rest with
      | nil => rw [Nat.ofDigitChars_nil, toDigits_of_isDigit hc]
      | cons d rest =>
        have hpos : 0 < c.toNat - '0'.toNat := by
          by_contra hle
          -- a zero before another digit says nothing
          refine hzero d rest (congrArg (· :: d :: rest) ?_)
          rw [← Char.toNat_inj]
          exact Nat.le_antisymm (by omega) (Char.isDigit_iff_toNat.mp hc).1
        rw [toDigits_ofDigitChars_of_pos hrest hpos, toDigits_of_isDigit hc]
        rfl
    · exact hzero

/-! ## Reading -/

/-- A number that fits is that of a word. -/
theorem fit?_eq_some {z : Int} {n : Int64} :
    fit? z = some n ↔ n.toInt = z := by
  unfold fit?
  constructor
  · intro h
    split at h
    · next hfits =>
      have hlow : Int64.minValue.toInt = -2 ^ 63 := rfl
      have hhigh : Int64.maxValue.toInt = 2 ^ 63 - 1 := rfl
      rw [← Option.some.inj h]
      exact Int64.toInt_ofInt_of_le (by omega) (by omega)
    · cases h
  · rintro rfl
    rw [if_pos ⟨n.minValue_le_toInt, n.toInt_le⟩, Int64.ofInt_toInt]

theorem magnitude?_eq_some {digits : List Char} {m : Nat} :
    magnitude? digits = some m ↔ digits ≠ [] ∧ (∀ c ∈ digits, c.isDigit = true)
      ∧ Nat.ofDigitChars 10 digits 0 = m := by
  unfold magnitude?
  cases digits with
  | nil => simp
  | cons c digits => simp [ite_eq_iff]

theorem magnitude?_toDigits (m : Nat) :
    magnitude? (Nat.toDigits 10 m) = some m :=
  magnitude?_eq_some.mpr ⟨Nat.toDigits_ne_nil,
    fun _ => Nat.isDigit_of_mem_toDigits (by decide) (by decide),
    Nat.ofDigitChars_ten_toDigits⟩

/-- Digits without a sign are read as they stand. -/
theorem read?_of_isDigit {digits : List Char}
    (h : ∀ c ∈ digits, c.isDigit = true) :
    read? digits = (magnitude? digits).bind fun m => fit? m := by
  unfold read?
  split
  · exact absurd (h _ (List.mem_cons_self ..)) (by decide)
  · exact absurd (h _ (List.mem_cons_self ..)) (by decide)
  · rfl

theorem toList_ofInt_natCast (m : Nat) :
    (ofInt m).toList = Nat.toDigits 10 m := String.toList_ofList

/-- The numeral of a negative number. -/
theorem toList_ofInt_neg {m : Nat} (h : 0 < m) :
    (ofInt (-m)).toList = '-' :: Nat.toDigits 10 m := by
  obtain ⟨k, rfl⟩ := Nat.exists_eq_add_of_lt h
  rw [Nat.zero_add]
  show ("-" ++ ofNat (k + 1)).toList = _
  rw [String.toList_append, ofNat, String.toList_ofList, String.toList_ofList]
  rfl

/-- **A numeral that is written** is a run of digits, after a minus sign if
the integer is negative. -/
theorem exists_toList_ofInt64 (n : Int64) : ∃ m : ℕ,
    (n.toInt = m ∧ (ofInt64 n).toList = Nat.toDigits 10 m)
      ∨ (n.toInt = -m ∧ (ofInt64 n).toList = '-' :: Nat.toDigits 10 m) := by
  rw [ofInt64]
  refine ⟨n.toInt.natAbs, ?_⟩
  rcases Int.lt_or_le n.toInt 0 with hneg | hpos
  · have hm : n.toInt = -(n.toInt.natAbs : ℤ) := by omega
    refine Or.inr ⟨hm, ?_⟩
    rw [hm, toList_ofInt_neg (by omega), Int.natAbs_neg, Int.natAbs_natCast]
  · have hm : n.toInt = n.toInt.natAbs := by omega
    refine Or.inl ⟨hm, ?_⟩
    rw [hm, toList_ofInt_natCast, Int.natAbs_natCast]

/-- **A numeral that is written is read back.** -/
theorem read?_toList_ofInt64 (n : Int64) :
    read? (ofInt64 n).toList = some n := by
  obtain ⟨m, ⟨hm, htext⟩ | ⟨hm, htext⟩⟩ := exists_toList_ofInt64 n
  · rw [htext, read?_of_isDigit, magnitude?_toDigits]
    · exact fit?_eq_some.mpr hm
    · exact fun _ => Nat.isDigit_of_mem_toDigits (by decide) (by decide)
  · rw [htext]
    show (magnitude? (Nat.toDigits 10 m)).bind (fun m => fit? (-m)) = some n
    rw [magnitude?_toDigits]
    exact fit?_eq_some.mpr hm

/-! ## Plain numerals -/

/-- A numeral without a plus sign, the zeros that say nothing and the sign of
a zero. -/
def withoutExcess : List Char → List Char
  | '-' :: digits =>
    if withoutZeros digits = ['0'] then ['0'] else '-' :: withoutZeros digits
  | '+' :: digits => withoutZeros digits
  | digits => withoutZeros digits

/-- **A text made plain**: without the blanks around a numeral and what the
numeral has in excess. -/
def plain (text : String) : String :=
  String.ofList (withoutExcess (trim text.toList))

/-- Only zero has the numeral of zero. -/
theorem toDigits_eq_zero_iff {m : Nat} : Nat.toDigits 10 m = ['0'] ↔ m = 0 := by
  constructor
  · intro h
    rw [← Nat.ofDigitChars_ten_toDigits (n := m), h]
    rfl
  · rintro rfl
    rfl

/-- What is read as a number is its numeral, but for the zeros that say
nothing. -/
theorem withoutZeros_of_magnitude? {digits : List Char} {m : Nat}
    (h : magnitude? digits = some m) :
    withoutZeros digits = Nat.toDigits 10 m := by
  obtain ⟨hne, hdigits, rfl⟩ := magnitude?_eq_some.mp h
  exact (toDigits_ofDigitChars hne hdigits).symm

/-- **What is written of a numeral that was read** is the numeral, without
what it has in excess. -/
theorem toList_ofInt64_of_read? {cs : List Char} {n : Int64}
    (h : read? cs = some n) : (ofInt64 n).toList = withoutExcess cs := by
  rw [ofInt64]
  unfold read? at h
  split at h
  · obtain ⟨m, hm, hfit⟩ := Option.bind_eq_some_iff.mp h
    rw [fit?_eq_some.mp hfit, withoutExcess, withoutZeros_of_magnitude? hm]
    by_cases hzero : m = 0
    · rw [if_pos (toDigits_eq_zero_iff.mpr hzero), hzero]
      rfl
    · rw [if_neg (mt toDigits_eq_zero_iff.mp hzero),
        toList_ofInt_neg (Nat.pos_of_ne_zero hzero)]
  · obtain ⟨m, hm, hfit⟩ := Option.bind_eq_some_iff.mp h
    rw [fit?_eq_some.mp hfit, withoutExcess, withoutZeros_of_magnitude? hm,
      toList_ofInt_natCast]
  · next hminus hplus =>
    obtain ⟨m, hm, hfit⟩ := Option.bind_eq_some_iff.mp h
    rw [fit?_eq_some.mp hfit, withoutExcess, withoutZeros_of_magnitude? hm,
      toList_ofInt_natCast]
    · exact hminus
    · exact hplus

end Decimal

/-! ## Blanks -/

theorem isBlank_of_isDigit {c : Char} (h : c.isDigit = true) :
    isBlank c = false := by
  have hc : 48 ≤ c.toNat ∧ c.toNat ≤ 57 := Char.isDigit_iff_toNat.mp h
  simp only [isBlank, Bool.or_eq_false_iff, Bool.and_eq_false_iff,
    decide_eq_false_iff_not, beq_eq_false_iff_ne]
  omega

/-- **Trimming takes away the blanks around a text** that has none itself. -/
theorem trim_append {u t w : List Char} (hu : ∀ c ∈ u, isBlank c = true)
    (hw : ∀ c ∈ w, isBlank c = true) (hne : t ≠ [])
    (ht : ∀ c ∈ t, isBlank c = false) : trim (u ++ t ++ w) = t := by
  have hstays : ∀ {ts : List Char} (rest : List Char), ts ≠ [] →
      (∀ c ∈ ts, isBlank c = false) →
      (ts ++ rest).dropWhile isBlank = ts ++ rest := by
    intro ts rest hts hblank
    obtain ⟨c, cs, rfl⟩ := List.exists_cons_of_ne_nil hts
    refine List.dropWhile_cons_of_neg ?_
    rw [hblank c (List.mem_cons_self ..)]
    exact Bool.false_ne_true
  have hreverse : t.reverse.dropWhile isBlank = t.reverse := by
    have h := @hstays t.reverse [] (List.reverse_ne_nil_iff.mpr hne)
      fun c hc => ht c (List.mem_reverse.mp hc)
    rwa [List.append_nil] at h
  rw [trim, List.append_assoc, List.dropWhile_append_of_pos hu,
    hstays w hne ht, List.reverse_append, List.dropWhile_append_of_pos
      fun c hc => hw c (List.mem_reverse.mp hc), hreverse, List.reverse_reverse]

/-- A numeral that is written has characters, and none of them is a blank. -/
theorem Decimal.ofInt64_spares_blanks (n : Int64) :
    (ofInt64 n).toList ≠ [] ∧ ∀ c ∈ (ofInt64 n).toList, isBlank c = false := by
  have hdigits : ∀ m, ∀ c ∈ Nat.toDigits 10 m, isBlank c = false :=
    fun m c hc => isBlank_of_isDigit
      (Nat.isDigit_of_mem_toDigits (by decide) (by decide) hc)
  obtain ⟨m, ⟨-, htext⟩ | ⟨-, htext⟩⟩ := exists_toList_ofInt64 n
  · rw [htext]
    exact ⟨Nat.toDigits_ne_nil, hdigits m⟩
  · rw [htext]
    exact ⟨List.cons_ne_nil _ _,
      List.forall_mem_cons.mpr ⟨by decide, hdigits m⟩⟩

end Primer.Text

namespace Primer

open Text

/-- **A numeral that is written is read back**, also with blanks around it. -/
theorem toInteger?_append (n : Int64) {u w : String}
    (hu : ∀ c ∈ u.toList, isBlank c = true)
    (hw : ∀ c ∈ w.toList, isBlank c = true) :
    toInteger? (u ++ Decimal.ofInt64 n ++ w) = some n := by
  obtain ⟨hne, hblank⟩ := Decimal.ofInt64_spares_blanks n
  rw [toInteger?, String.toList_append, String.toList_append,
    trim_append hu hw hne hblank, Decimal.read?_toList_ofInt64]

/-- **A text that was read is written plain.** -/
theorem ofInt64_of_toInteger? {text : String} {n : Int64}
    (h : toInteger? text = some n) :
    Decimal.ofInt64 n = Decimal.plain text := by
  rw [Decimal.plain, ← Decimal.toList_ofInt64_of_read? h, String.ofList_toList]

end Primer
