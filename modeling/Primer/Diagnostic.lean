import Primer.Span

/-!
# Diagnostics

What a reader is told about an error: one message, perhaps some help, and the
places in the program that the message is about, each with a few words of its
own. Every kind of error has a function to `Diagnostic`, and the wording of
an error is in that function and nowhere else.
-/

namespace Primer

/-- A place in the program and what is said about it. -/
structure Remark where
  /-- What is said. -/
  text : String
  /-- The place. -/
  span : Span
  deriving DecidableEq

/-- **What a reader is told about an error.** -/
structure Diagnostic where
  /-- The error in one sentence. -/
  message : String
  /-- What can be done about it. -/
  help : Option String
  /-- The places that the message is about. -/
  remarks : List Remark
  deriving DecidableEq

end Primer
