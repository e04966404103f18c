import Primer.Diagnostic
import Primer.Machine.Value

/-!
# Runtime errors

Why a run fails. Some of these are about the code, such as a label that is
not there, and some about what the code was run on, such as a division by
zero. None has a place in a program's text, since code has no spans.
-/

namespace Primer

open Text

/-- **Why a run fails.** -/
inductive RuntimeError where
  /-- A call of a routine that does not exist. -/
  | unknownRoutine (name : Ident)
  /-- A jump to a label that the routine does not have. -/
  | unknownLabel (label : Label) (routine : Ident)
  /-- A text that the table does not have. -/
  | unknownString (constant : Label)
  /-- A place that holds nothing yet. -/
  | unset (slot : Slot) (routine : Ident)
  /-- A place that holds a value of the other kind. -/
  | confused (slot : Slot) (expected : Ty) (found : Value)
  /-- A comparison of an integer and a text. -/
  | incomparable (lhs rhs : Value)
  /-- A text that is no numeral. -/
  | conversion (text : String)
  /-- A division by zero. -/
  | divisionByZero (routine : Ident)
  /-- An input that has no more integers. -/
  | inputExhausted
  /-- A call without one of the arguments. -/
  | missingArgument (index : Nat) (routine : Ident)
  /-- A result fetched where nothing was handed back. -/
  | noResult (routine : Ident)
  /-- More steps than were allowed. -/
  | stepLimit (limit : Nat)
  deriving DecidableEq

namespace RuntimeError

/-- The error in one sentence. -/
def message : RuntimeError → String
  | unknownRoutine name => "Call of unknown function '" ++ name ++ "'"
  | unknownLabel label routine =>
    "Jump to unknown label '" ++ label ++ "' in '" ++ routine ++ "'"
  | unknownString constant =>
    "No string constant is stored under '" ++ constant ++ "'"
  | unset slot routine =>
    "'" ++ slot ++ "' is read before it is set in '" ++ routine ++ "'"
  | confused slot expected found =>
    "'" ++ slot ++ "' holds " ++ found.text ++ " where an " ++ expected.name
      ++ " was expected"
  | incomparable lhs rhs =>
    "Cannot compare " ++ lhs.text ++ " with " ++ rhs.text
  | conversion text => "Cannot convert " ++ quote text ++ " to an integer"
  | divisionByZero routine => "Division by zero in '" ++ routine ++ "'"
  | inputExhausted => "The input is exhausted"
  | missingArgument index routine =>
    "Argument " ++ Decimal.ofNat index ++ " of '" ++ routine
      ++ "' was never passed"
  | noResult routine =>
    "RETURN_VALUE in '" ++ routine
      ++ "' without a preceding call that returned"
  | stepLimit limit => "Step limit of " ++ Decimal.ofNat limit ++ " exceeded"

/-- What can be done, where there is something to say. -/
def help : RuntimeError → Option String
  | inputExhausted =>
    some "provide more values with `Interpreter::with_input`"
  | _ => none

/-- What a reader is told about a runtime error. -/
def diagnostic (e : RuntimeError) : Diagnostic := ⟨e.message, e.help, []⟩

end RuntimeError

end Primer
