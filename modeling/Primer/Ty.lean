/-!
# Value types

A Primer value is an integer, a text, a truth value or the none value, and
its type says which. There is no subtyping and no coercion: two types are
equal or unrelated, so equality of `Ty` is the whole theory of types, and
the checker never asks more of two types than whether they are the same.

The four *kinds* of value are told apart only before a program runs. In the
machine a truth value is the integer 0 or 1 and the none value is the
integer 0; see `Primer.Machine.Value`.
-/

namespace Primer

/-- **A value type.** -/
inductive Ty where
  /-- Signed integers of 64 bits. -/
  | int
  /-- Texts. -/
  | str
  /-- Truth values. -/
  | bool
  /-- The type with one value, which a procedure hands back. -/
  | unit
  deriving DecidableEq

namespace Ty

/-- How a type is written in programs and in messages. -/
def name : Ty → String
  | int => "int"
  | str => "str"
  | bool => "bool"
  | unit => "None"

end Ty

end Primer
