import Mathlib.Data.Rat.Floor
import Primer.Proofs.Machine.Instructions

/-!
# Division rounded down

The machine divides words towards zero and corrects the quotient by one where
the two ways to round differ. The remainder is computed from the quotient with
operations that wrap. What comes of it is `IsFloorDivision`: the quotient is
the floor of the exact one, and the remainder is what the floor leaves.

There is one fraction whose floor is no word, that of the least word and -1.
Its quotient wraps, to the least word. Its remainder does not suffer from that,
since what was lost is a multiple of `2 ^ 64`.

The correction subtracts one without a guard. `floorDiv?` has a guard, and it
is never needed (`floorDiv?_eq`): a quotient is corrected only if something
remains, so the divisor is neither 1 nor -1, and the quotient is far from the
least word.
-/

namespace Primer

open Text

/-! ## The floor of a fraction -/

/-- **Integers divided by rounding down** give the floor of the fraction. -/
theorem floor_ratCast_div (a b : ℤ) : ⌊(a : ℚ) / b⌋ = a.fdiv b := by
  rcases Int.le_total 0 b with hb | hb
  · lift b to ℕ using hb
    rw [Int.fdiv_eq_ediv_of_nonneg a (Int.natCast_nonneg b)]
    exact Rat.floor_intCast_div_natCast a b
  · -- a negative divisor changes its sign together with the dividend
    obtain ⟨c, rfl⟩ : ∃ c : ℕ, b = -c := ⟨b.natAbs, by omega⟩
    rw [← Int.neg_fdiv_neg, neg_neg,
      Int.fdiv_eq_ediv_of_nonneg (-a) (Int.natCast_nonneg c),
      ← Rat.floor_intCast_div_natCast, Int.cast_neg, Int.cast_neg, div_neg,
      neg_div, Int.cast_natCast]

theorem fmod_of_neg {a b : ℤ} (hb : b < 0) :
    b < a.fmod b ∧ a.fmod b ≤ 0 := by
  have hneg := Int.neg_fmod_neg a b
  have hlow := Int.fmod_nonneg_of_pos (-a) (Int.neg_pos_of_neg hb)
  have hhigh := Int.fmod_lt_of_pos (-a) (Int.neg_pos_of_neg hb)
  omega

/-- What is left by rounding down is nearer to zero than the divisor, and
has its sign. -/
theorem fmod_of_pos {a b : ℤ} (hb : 0 < b) :
    0 ≤ a.fmod b ∧ a.fmod b < b :=
  ⟨Int.fmod_nonneg_of_pos a hb, Int.fmod_lt_of_pos a hb⟩

/-! ## Words -/

section Words

variable {a b : Int64}

/-- What is left of a word is a word. -/
theorem fmod_toInt_mem (hb : b ≠ 0) :
    -2 ^ 63 ≤ a.toInt.fmod b.toInt ∧ a.toInt.fmod b.toInt < 2 ^ 63 := by
  have hlow := b.le_toInt
  have hhigh := b.toInt_lt
  rcases Int.lt_trichotomy b.toInt 0 with hneg | hzero | hpos
  · have hmod := fmod_of_neg (a := a.toInt) hneg
    omega
  · exact absurd (Int64.toInt_inj.mp hzero) hb
  · have hmod := fmod_of_pos (a := a.toInt) hpos
    omega

theorem le_fdiv_toInt : -2 ^ 63 ≤ a.toInt.fdiv b.toInt := by
  have hle := Int.natAbs_fdiv_le_natAbs a.toInt b.toInt
  have hlow := a.le_toInt
  have hhigh := a.toInt_lt
  omega

/-- **The floor of a fraction of words is a word**, but for one fraction. -/
theorem fdiv_toInt_lt_iff (hb : b ≠ 0) :
    a.toInt.fdiv b.toInt < 2 ^ 63 ↔ ¬ (a = Int64.minValue ∧ b = -1) := by
  have hmin : a = Int64.minValue ↔ a.toInt = -2 ^ 63 :=
    Int64.toInt_inj.symm
  have hone : b = -1 ↔ b.toInt = -1 := Int64.toInt_inj.symm
  rw [hmin, hone]
  constructor
  · rintro hlt ⟨hmin, hone⟩
    rw [hmin, hone] at hlt
    exact absurd hlt (by decide)
  · intro hne
    by_contra hge
    -- the dividend is the least word, and the quotient is its negation
    have hle := Int.natAbs_fdiv_le_natAbs a.toInt b.toInt
    have hlow := a.le_toInt
    have hhigh := a.toInt_lt
    have hquotient : a.toInt.fdiv b.toInt = 2 ^ 63 := by omega
    have hdef := Int.mul_fdiv_add_fmod a.toInt b.toInt
    rw [hquotient] at hdef
    rcases Int.lt_trichotomy b.toInt 0 with hneg | hzero | hpos
    · have hmod := fmod_of_neg (a := a.toInt) hneg
      omega
    · exact hb (Int64.toInt_inj.mp hzero)
    · have hmod := fmod_of_pos (a := a.toInt) hpos
      omega

theorem toInt_floorDiv (hb : b ≠ 0) :
    (floorDiv a b).toInt = (a.toInt.fdiv b.toInt).bmod (2 ^ 64) := by
  rw [floorDiv_eq_ofInt a b hb, Int64.toInt_ofInt]
  rfl

theorem toInt_floorDiv_eq_iff (hb : b ≠ 0) :
    (floorDiv a b).toInt = a.toInt.fdiv b.toInt
      ↔ ¬ (a = Int64.minValue ∧ b = -1) := by
  rw [← fdiv_toInt_lt_iff hb]
  refine ⟨fun h => h ▸ (floorDiv a b).toInt_lt, fun hlt => ?_⟩
  rw [floorDiv_eq_ofInt a b hb]
  exact Int64.toInt_ofInt_of_le le_fdiv_toInt hlt

/-- **The remainder is what the floor leaves**, without a loss. -/
theorem toInt_floorMod (hb : b ≠ 0) :
    (floorMod a b).toInt = a.toInt.fmod b.toInt := by
  obtain ⟨hlow, hhigh⟩ := fmod_toInt_mem (a := a) hb
  rw [floorMod_eq_ofInt a b hb]
  exact Int64.toInt_ofInt_of_le hlow hhigh

theorem floorDiv_mul_add_floorMod : floorDiv a b * b + floorMod a b = a := by
  rw [floorMod, Int64.add_comm, Int64.sub_add_cancel]

/-! ## The correction -/

/-- `floorDiv` with a guard for its subtraction. -/
def floorDiv? (a b : Int64) : Option Int64 :=
  if a % b ≠ 0 ∧ decide (a < 0) ≠ decide (b < 0) then
    Decimal.fit? ((a / b).toInt - 1)
  else some (a / b)

/-- A quotient that leaves a remainder is far from the least word. -/
theorem le_toInt_div (hb : b ≠ 0) (h : a % b ≠ 0) :
    -2 ^ 62 ≤ (a / b).toInt := by
  have hdvd : ¬ b.toInt ∣ a.toInt := (mod_eq_zero_iff a b).not.mp h
  have htwo : 2 ≤ b.toInt.natAbs := by
    by_contra hlt
    have hunit : b.toInt.natAbs = 1 := by
      have hzero : b.toInt ≠ 0 := fun h => hb (Int64.toInt_inj.mp h)
      omega
    exact hdvd (Int.natAbs_dvd.mp (hunit ▸ one_dvd a.toInt))
  have hdividend : a.toInt.natAbs ≤ 2 ^ 63 := by
    have hlow := a.le_toInt
    have hhigh := a.toInt_lt
    omega
  have hquotient : (a.toInt.tdiv b.toInt).natAbs ≤ 2 ^ 63 / 2 := by
    rw [Int.natAbs_tdiv]
    exact Nat.div_le_div hdividend htwo two_ne_zero
  rw [div_eq_ofInt, Int64.toInt_ofInt_of_le (by omega) (by omega)]
  omega

/-- **The guard is not needed.** -/
theorem floorDiv?_eq (hb : b ≠ 0) : floorDiv? a b = some (floorDiv a b) := by
  unfold floorDiv? floorDiv
  split
  · next h =>
    have hlow := le_toInt_div hb h.1
    have hhigh := (a / b).toInt_lt
    have hmin : Int64.minValue.toInt = -2 ^ 63 := rfl
    have hmax : Int64.maxValue.toInt = 2 ^ 63 - 1 := rfl
    rw [Decimal.fit?, if_pos (by omega), Int64.ofInt_sub, Int64.ofInt_toInt]
    rfl
  · rfl

end Words

/-! ## The instructions -/

/-- **A quotient and a remainder of words** that come of rounding down. -/
structure IsFloorDivision (a b q r : Int64) : Prop where
  /-- The quotient is the floor of the fraction, reduced to a word. -/
  quotient : q.toInt = ⌊(a.toInt : ℚ) / b.toInt⌋.bmod (2 ^ 64)
  /-- It is the floor itself, but for one fraction. -/
  quotient_exact : q.toInt = ⌊(a.toInt : ℚ) / b.toInt⌋
    ↔ ¬ (a = Int64.minValue ∧ b = -1)
  /-- The remainder is what the floor leaves. -/
  remainder : r.toInt = a.toInt - b.toInt * ⌊(a.toInt : ℚ) / b.toInt⌋
  /-- It is not negative and less than a positive divisor. -/
  remainder_of_pos : 0 < b.toInt → 0 ≤ r.toInt ∧ r.toInt < b.toInt
  /-- It is not positive and greater than a negative divisor. -/
  remainder_of_neg : b.toInt < 0 → b.toInt < r.toInt ∧ r.toInt ≤ 0
  /-- Both make the dividend, in words. -/
  dividend : q * b + r = a

/-- **The machine divides by rounding down**, whatever the words. -/
theorem isFloorDivision {a b : Int64} (hb : b ≠ 0) :
    IsFloorDivision a b (floorDiv a b) (floorMod a b) where
  quotient := by rw [floor_ratCast_div, toInt_floorDiv hb]
  quotient_exact := by rw [floor_ratCast_div, toInt_floorDiv_eq_iff hb]
  remainder := by rw [floor_ratCast_div, toInt_floorMod hb, Int.fmod_def]
  remainder_of_pos hpos := toInt_floorMod hb ▸ fmod_of_pos hpos
  remainder_of_neg hneg := toInt_floorMod hb ▸ fmod_of_neg hneg
  dividend := floorDiv_mul_add_floorMod

/-- **What division instructions store.** If two places hold words and the
second is not zero, `div` stores a quotient and `mod` a remainder that come of
rounding down. The correction of the quotient stays within the words. -/
theorem Instr.execute_division {f : Frame} {lhs rhs : Slot} {a b : Int64}
    (hlhs : f.slots.get? lhs = some (.int a))
    (hrhs : f.slots.get? rhs = some (.int b)) (hb : b ≠ 0) :
    ∃ q r, IsFloorDivision a b q r ∧ floorDiv? a b = some q
      ∧ ∀ symbols s dst,
        (arith .div dst lhs rhs).execute symbols f s
          = .ok (f.set dst (.int q), s)
        ∧ (arith .mod dst lhs rhs).execute symbols f s
          = .ok (f.set dst (.int r), s) := by
  refine ⟨floorDiv a b, floorMod a b, isFloorDivision hb, floorDiv?_eq hb,
    fun symbols s dst => ⟨?_, ?_⟩⟩
  · have hcompute : ArithOp.div.compute? a b = some (floorDiv a b) := if_neg hb
    rw [execute_arith hlhs hrhs, hcompute]
    rfl
  · have hcompute : ArithOp.mod.compute? a b = some (floorMod a b) := if_neg hb
    rw [execute_arith hlhs hrhs, hcompute]
    rfl

/-- The one fraction whose floor is no word. -/
theorem Instr.execute_division_least : ∃ (f : Frame) (q r : Int64),
    f.slots.get? "a" = some (.int Int64.minValue)
      ∧ f.slots.get? "b" = some (.int (-1))
      ∧ IsFloorDivision Int64.minValue (-1) q r
      ∧ q.toInt ≠ ⌊(Int64.minValue.toInt : ℚ) / (-1 : Int64).toInt⌋ := by
  let f : Frame :=
    .enter ⟨⟨"f", [("a", .int), ("b", .int)], .unit, .global⟩, []⟩
      [.int Int64.minValue, .int (-1)]
  have hlhs : f.slots.get? "a" = some (.int Int64.minValue) := rfl
  have hrhs : f.slots.get? "b" = some (.int (-1)) := rfl
  obtain ⟨q, r, hdivision, -⟩ := execute_division hlhs hrhs (by decide)
  exact ⟨f, q, r, hlhs, hrhs, hdivision,
    fun h => hdivision.quotient_exact.mp h ⟨rfl, rfl⟩⟩

end Primer
