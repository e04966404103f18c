import Primer.Instr
import Primer.Text.Blank

/-!
# Values of the machine

A place holds an integer or a text. The machine knows nothing of the other
types: a truth value is the integer 0 or 1 and the none value is the integer
0, and it is the code, not the machine, that keeps to this.

Arithmetic is that of 64 bits and wraps. Division rounds down, so the
remainder has the sign of the divisor. The machine word divides towards zero,
and `floorDiv` corrects it by one where the two roundings differ: where
something remains and the signs are different.
-/

namespace Primer

open Text

/-- **What a place holds.** -/
inductive Value where
  /-- An integer. -/
  | int (n : Int64)
  /-- A text. -/
  | str (s : String)
  deriving DecidableEq

/-- A value as text, a text between quotes. -/
def Value.text : Value → String
  | int n => Decimal.ofInt64 n
  | str s => quote s

/-- **The quotient rounded down**, for a divisor that is not zero. -/
def floorDiv (a b : Int64) : Int64 :=
  if a % b ≠ 0 ∧ decide (a < 0) ≠ decide (b < 0) then a / b - 1 else a / b

/-- **The remainder that goes with `floorDiv`.** -/
def floorMod (a b : Int64) : Int64 := a - floorDiv a b * b

/-- The result of an operation, unless it divides by zero. -/
def ArithOp.compute? (op : ArithOp) (a b : Int64) : Option Int64 :=
  match op with
  | add => some (a + b)
  | sub => some (a - b)
  | mul => some (a * b)
  | div => if b = 0 then none else some (floorDiv a b)
  | mod => if b = 0 then none else some (floorMod a b)

/-- Whether a comparison holds, given whether the first value is the smaller
one and whether the two are equal. -/
def Comparison.holds (op : Comparison) (less equal : Bool) : Bool :=
  match op with
  | .less => less
  | .lessEq => less || equal
  | .equal => equal

/-- Whether a comparison of two values holds. Integers go by size and texts
by their characters, as in a dictionary; an integer and a text do not
compare. -/
def Comparison.compare? (op : Comparison) : Value → Value → Option Bool
  | .int a, .int b => some (op.holds (a < b) (a = b))
  | .str a, .str b => some (op.holds (a < b) (a = b))
  | _, _ => none

/-- Whether an integer passes a test. -/
def ZeroTest.passes (test : ZeroTest) (n : Int64) : Bool :=
  match test with
  | zero => n = 0
  | nonZero => n ≠ 0

/-- The integer that a text is the numeral of, blanks at its ends aside. -/
def toInteger? (s : String) : Option Int64 :=
  Decimal.read? (trim s.toList)

end Primer
