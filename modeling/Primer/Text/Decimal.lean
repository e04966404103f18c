/-!
# Decimal numerals

Integers are written in decimal with the fewest digits, a negative one after
a minus sign. Reading is more generous than writing: a plus sign and leading
zeros are allowed, and minus zero is zero. What is read must be an integer of
64 bits, so `read?` refuses a numeral that is too large for one. It refuses
rather than wraps: a numeral names a number, and no word of 64 bits is that
number.

Only the ten ASCII digits are digits here. The digits of other scripts are
letters as far as a numeral is concerned.
-/

namespace Primer.Text.Decimal

/-- The decimal numeral of a natural number. -/
def ofNat (n : Nat) : String := String.ofList (Nat.toDigits 10 n)

/-- **A numeral names one number**: its digits give the number back. -/
theorem ofNat_injective {m n : Nat} (h : ofNat m = ofNat n) : m = n := by
  have hdigits : Nat.toDigits 10 m = Nat.toDigits 10 n := by
    have hlists := congrArg String.toList h
    rwa [ofNat, ofNat, String.toList_ofList, String.toList_ofList] at hlists
  have hvalues := congrArg (fun digits => Nat.ofDigitChars 10 digits 0) hdigits
  simpa using hvalues

/-- The decimal numeral of an integer. -/
def ofInt : Int → String
  | .ofNat n => ofNat n
  | .negSucc n => "-" ++ ofNat (n + 1)

/-- The decimal numeral of a machine integer. -/
def ofInt64 (n : Int64) : String := ofInt n.toInt

/-- The number that a nonempty run of digits names. -/
def magnitude? (digits : List Char) : Option Nat :=
  if digits.isEmpty then none
  else if digits.all Char.isDigit then some (Nat.ofDigitChars 10 digits 0)
  else none

/-- The machine integer that is this integer, if there is one. -/
def fit? (n : Int) : Option Int64 :=
  if Int64.minValue.toInt ≤ n ∧ n ≤ Int64.maxValue.toInt then
    some (Int64.ofInt n)
  else none

/-- **Reads a numeral**: an optional sign, then one digit or more, naming a
number within 64 bits. -/
def read? : List Char → Option Int64
  | '-' :: digits => do fit? (-(← magnitude? digits))
  | '+' :: digits => do fit? (← magnitude? digits)
  | digits => do fit? (← magnitude? digits)

end Primer.Text.Decimal
