import Primer.Machine.Value
import Primer.Proofs.Semantics.Evaluator

/-!
# Arithmetic of the machine

The machine computes with words of 64 bits and corrects a division that
rounds towards zero. The evaluator computes with integers of any size, divides
by rounding down, and reduces the result. The two agree
(`ArithOp.compute?_eq`): a word is the integer that it stands for, reduced, and
the correction by one is what lies between the two ways to round.
-/

namespace Primer

/-- The quotient of words, rounded towards zero, is that of the integers,
reduced. -/
theorem div_eq_ofInt (a b : Int64) :
    a / b = Int64.ofInt (a.toInt.tdiv b.toInt) := by
  symm
  rw [Int64.ofInt_eq_iff_bmod_eq_toInt, Int64.toInt_div]

/-- Nothing remains of a division of words if the one integer divides the
other. -/
theorem mod_eq_zero_iff (a b : Int64) : a % b = 0 ↔ b.toInt ∣ a.toInt := by
  rw [← Int64.toInt_inj, Int64.toInt_mod, Int64.toInt_zero]
  exact Int.dvd_iff_tmod_eq_zero.symm

theorem lt_zero_iff (a : Int64) : a < 0 ↔ a.toInt < 0 := by
  rw [Int64.lt_iff_toInt_lt, Int64.toInt_zero]

/-- **The corrected quotient is the quotient rounded down.** -/
theorem floorDiv_eq_ofInt (a b : Int64) (h : b ≠ 0) :
    floorDiv a b = Int64.ofInt (a.toInt.fdiv b.toInt) := by
  have hb : b.toInt ≠ 0 := fun hb => h (Int64.toInt_inj.mp hb)
  unfold floorDiv
  simp only [ne_eq, mod_eq_zero_iff, lt_zero_iff, div_eq_ofInt]
  rw [Int.fdiv_eq_tdiv]
  by_cases hdvd : b.toInt ∣ a.toInt
  · simp [hdvd]
  · have hone : Int64.ofInt (a.toInt.tdiv b.toInt) - 1
        = Int64.ofInt (a.toInt.tdiv b.toInt - 1) := by
      rw [Int64.ofInt_sub]
      rfl
    rw [hone, if_neg hdvd]
    -- the roundings differ exactly if the signs do
    rcases Int.lt_or_le a.toInt 0 with ha | ha <;>
      rcases Int.lt_or_le b.toInt 0 with hneg | hpos
    · simp [hdvd, ha, hneg, Int.not_le.mpr ha, Int.not_le.mpr hneg,
        Int.sign_eq_neg_one_of_neg hneg]
    · have hsign := Int.sign_eq_one_of_pos
        (Int.lt_iff_le_and_ne.mpr ⟨hpos, hb.symm⟩)
      simp [hdvd, ha, hpos, Int.not_le.mpr ha, Int.not_lt.mpr hpos, hsign]
    · simp [hdvd, ha, hneg, Int.not_lt.mpr ha, Int.not_le.mpr hneg]
    · simp [hdvd, ha, hpos, Int.not_lt.mpr ha, Int.not_lt.mpr hpos]

theorem floorMod_eq_ofInt (a b : Int64) (h : b ≠ 0) :
    floorMod a b = Int64.ofInt (a.toInt.fmod b.toInt) := by
  rw [floorMod, floorDiv_eq_ofInt a b h, Int.fmod_def, Int64.ofInt_sub,
    Int64.ofInt_mul, Int64.ofInt_toInt, Int64.ofInt_toInt, Int64.mul_comm]

/-- **The machine computes what an operation means.** -/
theorem ArithOp.compute?_eq (op : ArithOp) (a b : Int64) :
    op.compute? a b = if op.divides ∧ b = 0 then none
      else some (Int64.ofInt (op.exact a.toInt b.toInt)) := by
  cases op with
  | add => simp [compute?, divides, exact]
  | sub => simp [compute?, divides, exact]
  | mul => simp [compute?, divides, exact]
  | div =>
    by_cases hb : b = 0
    · simp [compute?, divides, hb]
    · simp [compute?, divides, exact, hb, floorDiv_eq_ofInt a b hb]
  | mod =>
    by_cases hb : b = 0
    · simp [compute?, divides, hb]
    · simp [compute?, divides, exact, hb, floorMod_eq_ofInt a b hb]

/-- **The machine compares as a comparison means.** -/
theorem Comparison.holds_eq (op : Comparison) (a b : Int64) :
    op.holds (a < b) (a = b) = op.exact a.toInt b.toInt := by
  cases op with
  | less => simp [holds, exact, Int64.lt_iff_toInt_lt]
  | equal => simp [holds, exact, Int64.toInt_inj]
  | lessEq =>
    simp only [holds, exact, Int64.lt_iff_toInt_lt, ← Int64.toInt_inj,
      ← Bool.decide_or]
    exact decide_eq_decide.mpr Int.le_iff_lt_or_eq.symm

end Primer
