import Primer.Expr
import Primer.SymbolTable

/-!
# Names of a program and names that are made up

Slots and labels are called by texts, and so are the variables and
definitions of a program. What keeps the two apart is a *sigil*: a made-up
name begins with `%` or with a point, and a *plain* name begins with neither.

What keeps two made-up names apart is the number they end in. A name is a
stem followed by a numeral, and where the stem ends and the numeral begins
can be told from the name alone as long as no stem ends in a digit
(`append_ofNat_inj`). So a name has one number, and the tables of a
compilation give out every number once. `Made lo hi` is the set of names
whose number lies in a range; ranges that do not overlap have no name in
common (`Made.disjoint`).

Where stems may end in digits, half of this is left. Of two names with
different numbers, only the one with the smaller number has to have a stem
that does not end in a digit (`append_ofNat_ne_of_lt`).
-/

namespace Primer

open Text

/-- Whether a name begins with a character. -/
def Ident.BeginsWith (name : Ident) (c : Char) : Prop :=
  name.toList.head? = some c

instance (name : Ident) (c : Char) : Decidable (name.BeginsWith c) :=
  inferInstanceAs (Decidable (_ = _))

/-- **A plain name**: one that begins with no sigil. -/
def Ident.Plain (name : Ident) : Prop :=
  ¬ name.BeginsWith '%' ∧ ¬ name.BeginsWith '.'

instance (name : Ident) : Decidable name.Plain :=
  inferInstanceAs (Decidable (_ ∧ _))

/-- **A stem**: what a made-up name begins with. It begins with a sigil, and
it does not end in a digit. -/
structure Stem (stem : String) : Prop where
  /-- It begins with a sigil. -/
  sigil : Ident.BeginsWith stem '%' ∨ Ident.BeginsWith stem '.'
  /-- It does not end in a digit. -/
  last : ∀ c, stem.toList.getLast? = some c → c.isDigit = false

theorem isDigit_of_mem_ofNat {n : Nat} {c : Char}
    (h : c ∈ (Decimal.ofNat n).toList) : c.isDigit = true := by
  rw [Decimal.ofNat, String.toList_ofList] at h
  exact Nat.isDigit_of_mem_toDigits (by decide) (by decide) h

/-- **The cut between stem and digits is where the digits begin.** -/
theorem append_digits_inj {xs ys ds es : List Char}
    (hxs : ∀ c, xs.getLast? = some c → c.isDigit = false)
    (hys : ∀ c, ys.getLast? = some c → c.isDigit = false)
    (hds : ∀ c ∈ ds, c.isDigit = true) (hes : ∀ c ∈ es, c.isDigit = true)
    (h : xs ++ ds = ys ++ es) : xs = ys ∧ ds = es := by
  -- whichever stem were longer would end in a digit of the other's numeral
  have key : ∀ {zs ws as bs : List Char},
      (∀ c, ws.getLast? = some c → c.isDigit = false) →
      (∀ c ∈ bs, c.isDigit = true) → ws = zs ++ as →
      bs = as ++ ds ∨ bs = as ++ es → as = [] := by
    intro zs ws as bs hws hbs hcut hdigits
    rcases List.eq_nil_or_concat as with has | ⟨init, c, has⟩
    · exact has
    · have hlast : ws.getLast? = some c := by simp [hcut, has]
      have hmem : c ∈ bs := by
        rcases hdigits with hd | hd <;> simp [hd, has]
      have hdigit := hbs c hmem
      rw [hws c hlast] at hdigit
      exact absurd hdigit Bool.false_ne_true
  rcases List.append_eq_append_iff.mp h with ⟨as, hy, hd⟩ | ⟨as, hx, he⟩
  · have has := key hys hds hy (Or.inr hd)
    subst has
    simp_all
  · have has := key hxs hes hx (Or.inl he)
    subst has
    simp_all

/-- **A name has one stem and one number.** -/
theorem append_ofNat_inj {stem₁ stem₂ : String} {m n : Nat}
    (h₁ : Stem stem₁) (h₂ : Stem stem₂)
    (h : stem₁ ++ Decimal.ofNat m = stem₂ ++ Decimal.ofNat n) :
    stem₁ = stem₂ ∧ m = n := by
  have hlists := congrArg String.toList h
  rw [String.toList_append, String.toList_append] at hlists
  obtain ⟨hstem, hdigits⟩ := append_digits_inj h₁.last h₂.last
    (fun _ => isDigit_of_mem_ofNat) (fun _ => isDigit_of_mem_ofNat) hlists
  exact ⟨String.toList_inj.mp hstem,
    Decimal.ofNat_injective (String.toList_inj.mp hdigits)⟩

/-- Whether a name ends in a digit. -/
def Ident.EndsInDigit (name : Ident) : Prop :=
  name.toList.getLast?.any Char.isDigit = true

instance (name : Ident) : Decidable name.EndsInDigit :=
  inferInstanceAs (Decidable (_ = _))

/-- More digits in front make no smaller number. -/
theorem ofDigitChars_mono (digits : List Char) {i j : Nat} (h : i ≤ j) :
    Nat.ofDigitChars 10 digits i ≤ Nat.ofDigitChars 10 digits j := by
  induction digits generalizing i j with
  | nil => exact h
  | cons c digits ih =>
    rw [Nat.ofDigitChars_cons, Nat.ofDigitChars_cons]
    exact ih (by omega)

/-- **A name keeps its number when greater numbers follow**, as long as its
stem does not end in a digit. The other stem may end in anything. -/
theorem append_ofNat_ne_of_lt {stem₁ stem₂ : String} {m n : Nat}
    (hstem : ¬ Ident.EndsInDigit stem₁) (hlt : m < n) :
    stem₁ ++ Decimal.ofNat m ≠ stem₂ ++ Decimal.ofNat n := by
  intro heq
  have hlists := congrArg String.toList heq
  rw [String.toList_append, String.toList_append] at hlists
  have hvalue (k : Nat) :
      Nat.ofDigitChars 10 (Decimal.ofNat k).toList 0 = k := by
    rw [Decimal.ofNat, String.toList_ofList]
    exact Nat.ofDigitChars_toDigits (by decide) (by decide)
  rcases List.append_eq_append_iff.mp hlists with
    ⟨as, -, hdigits⟩ | ⟨as, hcut, hdigits⟩
  · -- the digits of `m` end in those of `n`, so `m` is no smaller
    have hle := ofDigitChars_mono (Decimal.ofNat n).toList
      (Nat.zero_le (Nat.ofDigitChars 10 as 0))
    rw [← Nat.ofDigitChars_append, ← hdigits, hvalue, hvalue] at hle
    exact Nat.not_le_of_lt hlt hle
  · -- the first stem ends in digits of `n`, which are then none
    rcases List.eq_nil_or_concat as with rfl | ⟨init, c, rfl⟩
    · rw [List.nil_append] at hdigits
      have hmn := Decimal.ofNat_injective (String.toList_inj.mp hdigits)
      exact Nat.lt_irrefl _ (hmn ▸ hlt)
    · have hc : c.isDigit = true := by
        refine isDigit_of_mem_ofNat (n := n) ?_
        rw [hdigits]
        simp
      refine hstem ?_
      unfold Ident.EndsInDigit
      simp [hcut, hc]

/-- **A made-up name** whose number is at least `lo` and less than `hi`. -/
def Made (lo hi : Nat) (name : String) : Prop :=
  ∃ stem n, Stem stem ∧ name = stem ++ Decimal.ofNat n ∧ lo ≤ n ∧ n < hi

namespace Made

theorem mono {lo hi lo' hi' : Nat} {name : String} (h : Made lo hi name)
    (hlo : lo' ≤ lo) (hhi : hi ≤ hi') : Made lo' hi' name := by
  obtain ⟨stem, n, hstem, hname, hn, hn'⟩ := h
  exact ⟨stem, n, hstem, hname, Nat.le_trans hlo hn, Nat.lt_of_lt_of_le hn' hhi⟩

/-- **Ranges that do not overlap have no name in common.** -/
theorem disjoint {lo mid mid' hi : Nat} {name : String}
    (h : Made lo mid name) (h' : Made mid' hi name) : mid' < mid := by
  obtain ⟨stem, n, hstem, hname, -, hn⟩ := h
  obtain ⟨stem', n', hstem', hname', hn', -⟩ := h'
  have hnn := (append_ofNat_inj hstem hstem' (hname.symm.trans hname')).2
  omega

theorem single {stem : String} (h : Stem stem) (n : Nat) :
    Made n (n + 1) (stem ++ Decimal.ofNat n) :=
  ⟨stem, n, h, rfl, Nat.le_refl n, Nat.lt_succ_self n⟩

/-- A made-up name begins with a sigil. -/
theorem beginsWith {lo hi : Nat} {name : String} (h : Made lo hi name) :
    Ident.BeginsWith name '%' ∨ Ident.BeginsWith name '.' := by
  obtain ⟨stem, n, hstem, rfl, -, -⟩ := h
  unfold Ident.BeginsWith
  rw [String.toList_append]
  exact hstem.sigil.imp (fun hs => by rw [List.head?_append, hs]; rfl)
    (fun hs => by rw [List.head?_append, hs]; rfl)

/-- **No plain name is made up.** -/
theorem not_plain {lo hi : Nat} {name : String} (h : Made lo hi name) :
    ¬ Ident.Plain name :=
  fun hplain => h.beginsWith.elim hplain.1 hplain.2

end Made

theorem stem_temporary : Stem "%t" := ⟨.inl rfl, by simp⟩

theorem stem_constant : Stem ".str" := ⟨.inr rfl, by simp⟩

theorem Ident.beginsWith_point (hint rest : String) :
    Ident.BeginsWith ("." ++ hint ++ rest) '.' := by
  unfold Ident.BeginsWith
  rw [String.append_assoc, String.toList_append]
  rfl

/-- The stem of labels with a hint that does not end in a digit. -/
theorem Stem.point {hint : String}
    (h : ∀ c, hint.toList.getLast? = some c → c.isDigit = false) :
    Stem ("." ++ hint) where
  sigil := by
    right
    unfold Ident.BeginsWith
    rw [String.toList_append]
    rfl
  last := by
    intro c hc
    rw [String.toList_append, List.getLast?_append] at hc
    cases hl : hint.toList.getLast? with
    | none =>
      rw [hl] at hc
      cases hc
      rfl
    | some d =>
      rw [hl] at hc
      cases hc
      exact h _ hl

end Primer
