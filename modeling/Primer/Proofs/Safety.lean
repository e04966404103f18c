import Primer.Proofs.Machine.StepLimit
import Primer.Proofs.Simulation.Correctness

/-!
# Runs of compiled code are safe

Of the many ways in which a run can fail, only a few are left to code that was
compiled from a program (`Program.MayEnd`): those of the program itself, which
are listed in `Program.MayFail`, and the step limit. In particular no code
names a routine, a label or a text that is not there, no place holds a value
of the wrong kind, no call is short of an argument or of a result, and no
temporary is read before it is set.

A run with a step limit is a run without one that is cut off
(`Transition.follow_limit`). So it is enough to know the runs without a limit,
and these end as the program ends, which is well typed and therefore safe.
-/

namespace Primer

open Transition

/-! ## How a run may end -/

/-- **The ways in which a run may end.** -/
inductive Program.MayEnd {α : Type} (p : Program α) (limit : Option Nat) :
    Outcome → Prop
  /-- The main routine comes to its end. -/
  | finished : p.MayEnd limit .finished
  /-- The program fails. -/
  | failed {error : RuntimeError} (h : p.MayFail error) :
    p.MayEnd limit (.failed error)
  /-- There is a step limit, and it is exceeded. -/
  | exceeded {l : Nat} (h : limit = some l) :
    p.MayEnd limit (.failed (.stepLimit l))
  /-- There is no room for the arguments of a call. -/
  | crashed (h : ¬ p.FitsMemory) : p.MayEnd limit .crashed

theorem Program.wellTyped_of_compile {p : Program Span} {a : Assembly}
    (hcompile : p.compile = .ok a) : p.WellTyped := by
  obtain ⟨typed, hcheck, -⟩ := compile_eq_ok.mp hcompile
  have hsound := check_sound hcheck
  exact hsound.erase ▸ hsound.wellTyped.erase

/-- **A well typed program ends as it may end.** -/
theorem Program.Ends.mayEnd {p : Program Span} (h : p.WellTyped)
    {limit : Option Nat} {w w' : World} {outcome : Outcome}
    (hends : p.Ends w outcome w') : p.MayEnd limit outcome := by
  cases hends with
  | finished => exact .finished
  | @failed fuel error w' hexec =>
    have hsafe := h.safe_exec fuel w
    rw [hexec] at hsafe
    exact .failed hsafe

/-- **A run without a step limit ends as the program may end.** -/
theorem Program.mayEnd_of_after {p : Program Span} {a : Assembly}
    (hcompile : p.compile = .ok a) (hplain : p.HasPlainNames)
    {limit : Option Nat} {n : Nat} {s s' : Session} {outcome : Outcome}
    (hafter : after a n (a.start s) = .halt outcome s') :
    p.MayEnd limit outcome := by
  rcases crashes_or_settles hcompile hplain s with
    ⟨hroom, k, s'', hcrash⟩ | hsettles
  · obtain ⟨rfl, -⟩ := after_unique hafter hcrash
    exact .crashed hroom
  · exact (ends_of_after hsettles hafter).mayEnd (wellTyped_of_compile hcompile)

/-! ## The theorem -/

/-- **Compiled code is safe**: whatever the session and the step limit, a run
ends only as the program may end. If it ends because a place is not set, then
the place is that of a variable which is introduced in the body that the error
names. It is no parameter, and its name is plain, so it is no temporary. -/
theorem Program.compile_safe {p : Program Span} {a : Assembly}
    (hcompile : p.compile = .ok a) (hplain : p.HasPlainNames)
    {limit : Option Nat} {horizon : Nat} {s s' : Session} {outcome : Outcome}
    (hrun : a.run limit horizon s = some (outcome, s')) :
    p.MayEnd limit outcome ∧ ∀ name body,
      outcome = .failed (.unset name body) → ∃ d ∈ p.bodies, d.name = body
        ∧ d.Introduces name ∧ Ident.Plain name := by
  have hmay : p.MayEnd limit outcome := by
    rcases follow_limit hrun with ⟨l, hlimit, rfl⟩ | hafter
    · exact .exceeded hlimit
    · exact mayEnd_of_after hcompile hplain hafter
  refine ⟨hmay, ?_⟩
  rintro name body rfl
  cases hmay with
  | failed h =>
    obtain ⟨d, hd, hname, hintroduces⟩ := h
    exact ⟨d, hd, hname, hintroduces,
      hplain.introduced d hd name hintroduces.1⟩

/-- A run of the doubling program ends. -/
theorem Program.exists_run_doubling : ∃ a outcome s',
    doubling.compile = .ok a
      ∧ a.run (some 100) 100 (.fresh [3, 0]) = some (outcome, s') := by
  obtain ⟨a, hcompile⟩ := exists_compile_doubling
  have hends : (doubling.compile.toOption.bind fun a =>
      a.run (some 100) 100 (.fresh [3, 0])).isSome = true := by
    decide +kernel
  rw [hcompile] at hends
  obtain ⟨⟨outcome, s'⟩, hrun⟩ := Option.isSome_iff_exists.mp hends
  exact ⟨a, outcome, s', hcompile, hrun⟩

/-- A run of the doubling program ends, and as the program may end. -/
theorem Program.compile_safe_doubling : ∃ a outcome s',
    doubling.compile = .ok a
      ∧ a.run (some 100) 100 (.fresh [3, 0]) = some (outcome, s')
      ∧ doubling.MayEnd (some 100) outcome := by
  obtain ⟨a, outcome, s', hcompile, hrun⟩ := exists_run_doubling
  have hplain : doubling.HasPlainNames := ⟨by decide, by decide, by decide⟩
  exact ⟨a, outcome, s', hcompile, hrun,
    (compile_safe hcompile hplain hrun).1⟩

end Primer
