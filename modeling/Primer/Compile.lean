import Primer.Emission.Program

/-!
# Compiling

A program is checked, and code is emitted for it if the check succeeds. There
is one error at most, since nothing goes on after the first.
-/

namespace Primer

/-- **Why a program is not compiled.** -/
inductive CompileError where
  /-- It does not pass the check. -/
  | typing (error : TypeError)
  /-- No code can be emitted for it. -/
  | emission (error : EmissionError)
  deriving DecidableEq

/-- What a reader is told about the error. -/
def CompileError.diagnostic : CompileError → Diagnostic
  | typing error => error.diagnostic
  | emission error => error.diagnostic

/-- **Checks a program and emits its code.** -/
def Program.compile (p : Program Span) : Except CompileError Assembly :=
  match p.check with
  | .error error => .error (.typing error)
  | .ok typed => typed.emit.mapError .emission

end Primer
