import Primer.Proofs.Emission.Success
import Primer.Proofs.Indexed.Emission

/-!
# Emission over an indexed table succeeds on checked programs

What emission over an indexed table could end with is a scope that is missing,
a name that is taken, an operator or a negation where a value is to be stored,
and a conversion of the none value. The arms for operators are not reached for
any tree at all (`IndexedProgram.unexpectedType_of_lower`): whatever has no
arithmetic is a condition, and the value of a condition is stored by branching
on it. The rest is not met in a tree that was checked, over the table that the
check leaves (`Program.exists_emit_of_check`).
-/

namespace Primer

/-- **An operator is never refused**, in whatever tree: only a conversion of
the none value is. -/
theorem IndexedProgram.unexpectedType_of_lower {p : IndexedProgram}
    (h : p.symbols.InStep) {operation : String} {ty : Ty} {span : Span}
    (hlower : p.lower.run
      = some (.error (.unexpectedType operation ty span))) :
    ty = .unit ∧ ∃ target : Conversion, operation = target.name := by
  obtain ⟨error, -, herror⟩ := (p.lower_answers h).exists_of_error hlower
  cases error with
  | missingScope owner => cases herror
  | duplicateEntry name => cases herror
  | unconvertible target span =>
    cases herror
    exact ⟨rfl, target, rfl⟩

/-- Code is emitted for a checked program over the table of its check. -/
theorem Program.exists_lower_of_check {p : Program Span}
    {typed : IndexedProgram} (hcheck : p.checkIndexed.run = some (.ok typed))
    (hnames : ∀ d ∈ p.definitions, ¬ d.name.BeginsWith '.') :
    ∃ a, typed.lower.run = some (.ok a) := by
  obtain ⟨hplain, hstep⟩ := check_of_checkIndexed hcheck
  obtain ⟨a, ha⟩ := exists_emit_of_check hplain hnames
  have hlower := typed.lower_answers hstep
  rw [ha] at hlower
  obtain ⟨a', ha', -⟩ := hlower
  exact ⟨a', ha'⟩

/-- **Lowering never fails on a checked program** whose definitions have names
that begin with no point. Code is emitted for whatever passes the check, and
it is what the program is compiled to: no scope is missing, no name of a body
is taken, and none of the arms for values without code is reached. So no error
of emission is one that compiling a program could end with, and no operation
on the table breaks off. -/
theorem Program.lowering_succeeds {p : Program Span}
    (hnames : ∀ d ∈ p.definitions, ¬ d.name.BeginsWith '.') :
    (∀ typed, p.checkIndexed.run = some (.ok typed) →
      ∃ a, typed.lower.run = some (.ok a)
        ∧ p.compileIndexed = some (.ok a))
    ∧ (∀ error, p.compileIndexed ≠ some (.error (.lowering error)))
    ∧ p.compileIndexed ≠ none := by
  have hlower : ∀ typed, p.checkIndexed.run = some (.ok typed) →
      ∃ a, typed.lower.run = some (.ok a)
        ∧ p.compileIndexed = some (.ok a) := by
    intro typed hcheck
    obtain ⟨a, ha⟩ := exists_lower_of_check hcheck hnames
    refine ⟨a, ha, ?_⟩
    simp [compileIndexed, hcheck, ha]
    rfl
  refine ⟨hlower, fun error herror => ?_, p.compileIndexed_answers.ne_none⟩
  obtain ⟨result, hresult⟩ :=
    Option.ne_none_iff_exists'.mp p.checkIndexed_agrees.ne_none
  cases result with
  | error error' =>
    simp [compileIndexed, hresult] at herror
  | ok typed =>
    obtain ⟨a, -, ha⟩ := hlower typed hresult
    simp [ha] at herror

/-- Code is emitted for the doubling program. -/
theorem Program.lowering_succeeds_doubling :
    (∃ typed a, doubling.checkIndexed.run = some (.ok typed)
      ∧ typed.lower.run = some (.ok a)
      ∧ doubling.compileIndexed = some (.ok a))
    ∧ (∀ error, doubling.compileIndexed ≠ some (.error (.lowering error)))
    ∧ doubling.compileIndexed ≠ none := by
  have hnames : ∀ d ∈ doubling.definitions, ¬ d.name.BeginsWith '.' := by
    decide
  obtain ⟨hlower, herror, hnone⟩ := lowering_succeeds hnames
  refine ⟨?_, herror, hnone⟩
  have hcheck := doubling.checkIndexed_agrees
  have hok : doubling.check.toOption.isSome = true := by decide +kernel
  cases hplain : doubling.check with
  | error error => simp [hplain, Except.toOption] at hok
  | ok plain =>
    rw [hplain] at hcheck
    obtain ⟨typed, htyped, -⟩ := hcheck
    obtain ⟨a, ha⟩ := hlower typed htyped
    exact ⟨typed, a, htyped, ha⟩

end Primer
