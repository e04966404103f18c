import Primer.TypeError

/-!
# How control leaves a piece of code

A summary of a statement or a block: it never returns, it always returns, or
it returns on some paths and goes on to what follows on others. Where it
returns at all, the summary has the type of the value, one type for all
returns.

There are three operations, one for each way of putting code together. One
piece after another is `sequence`, two pieces side by side are `merge`, and a
piece that may be skipped is `demote`. The first two are partial: nothing may
follow a piece that always returns, and the returns of two pieces have to
agree.
-/

namespace Primer

/-- **How control leaves a piece of code.** -/
inductive Returns where
  /-- It goes on to what follows, on every path. -/
  | never
  /-- It returns a value of this type, on every path. -/
  | always (ty : Ty)
  /-- It returns a value of this type on some paths and goes on to what
  follows on others. -/
  | maybe (ty : Ty)
  deriving DecidableEq

namespace Returns

/-- The type of the returned value, if there is a return. -/
def ty? : Returns → Option Ty
  | never => none
  | always ty | maybe ty => some ty

/-- **A piece that may be skipped**, such as the body of a loop. -/
def demote : Returns → Returns
  | always ty => maybe ty
  | other => other

/-- **One piece after another**, the second one standing at `span`. -/
def sequence (first second : Returns) (span : Span) : Check Returns :=
  match first, second with
  | never, second => .ok second
  | always _, _ => refuse .unreachable span
  | maybe ty, never => .ok (maybe ty)
  | maybe expected, always found =>
    if found = expected then .ok (always found)
    else refuse (.inconsistentReturns expected found) span
  | maybe expected, maybe found =>
    if found = expected then .ok (maybe found)
    else refuse (.inconsistentReturns expected found) span

/-- **Two pieces side by side**, of which one is executed. The result is
certain only if both are. -/
def merge (one other : Returns) (span : Span) : Check Returns :=
  match one, other with
  | never, other => .ok other.demote
  | one, never => .ok one.demote
  | always expected, always found =>
    if expected = found then .ok (always expected)
    else refuse (.inconsistentReturns expected found) span
  | always expected, maybe found | maybe expected, always found
  | maybe expected, maybe found =>
    if expected = found then .ok (maybe expected)
    else refuse (.inconsistentReturns expected found) span

end Returns

end Primer
