import Primer.Proofs.Machine.Control
import Primer.Proofs.Simulation.Programs

/-!
# Compilation is correct

A program and the code that it is compiled to end in the same ways. Whatever
the input is, the machine finishes where the evaluator has a value, fails with
the error that the evaluator fails with, and has read and written the same by
then; and it goes on for ever where the evaluator asks for more fuel whatever
fuel it has (`Program.Agrees`).

The work is done in `Assembly.Implements.realizes_main`, which is about one
amount of fuel. Here the runs that it speaks of are followed to their ends
(`Transition.Settles`). A machine has one run from a state, so for all amounts
of fuel it is the same run, and what is left is to choose the fuel: as many
steps as the run has are enough.

The memory of the machine sets a limit to the number of arguments of a call,
and the evaluator has no such limit. A program with a definition that has more
parameters than that can be written down but is never in memory; its code may
crash (`Program.FitsMemory`).
-/

namespace Primer

/-! ## Runs to the end -/

namespace Transition

/-- **The run from a transition on settles an execution**: it ends where the
execution ends, with the same world, and goes on for as long as there was
fuel where the fuel was not enough. -/
def Settles (a : Assembly) (fuel : Nat) (tr : Transition) :
    EStateM.Result Stop World Unit → Prop
  | .ok _ w => ∃ n s, after a n tr = .halt .finished s ∧ s.world = w
  | .error (.failed error) w =>
    ∃ n s, after a n tr = .halt (.failed error) s ∧ s.world = w
  | .error .stuck _ => False
  | .error .outOfFuel _ => ∃ m, after a fuel tr = .next m

variable {a : Assembly} {tr : Transition}

/-- The code of the main routine ends with `leave`, which ends the run. -/
theorem Realizes.settles {room : Prop} {fuel : Nat}
    {result : EStateM.Result Stop World Unit}
    (h : tr.Realizes a room fuel [] (fun _ f => f.rest = [.leave]) result) :
    (¬ room ∧ tr.Crashes a) ∨ tr.Settles a fuel result := by
  refine h.imp_right fun h => ?_
  match result with
  | .ok _ w =>
    obtain ⟨n, m, hafter, hcallers, hrest, hw⟩ := h
    refine ⟨n + 1, m.session.countStep.record (.step m.frame.name .leave),
      ?_, hw⟩
    rw [after_add, hafter]
    show m.step a none = _
    rw [Machine.step_none hrest, hcallers]
    rfl
  | .error (.failed error) w => exact h
  | .error .stuck _ => exact h
  | .error .outOfFuel _ => exact h

end Transition

open Transition

/-- **A run of code that implements a program settles its execution**, if it
does not crash for want of memory. -/
theorem Assembly.Implements.settles {a : Assembly} {c : Constants}
    {p : Program Judged} (h : a.Implements c p) (fuel : Nat) (s : Session) :
    (¬ p.FitsMemory ∧ (a.start s).Crashes a)
      ∨ (a.start s).Settles a fuel (p.exec fuel s.world) := by
  have hstart : a.start s = .next ⟨.enter a.main [], [],
      s.record (.call a.main.name [])⟩ := by
    unfold start Machine.enter
    rw [h.main.params]
    rfl
  rw [hstart]
  exact (h.realizes_main fuel s.world _ rfl rfl rfl).settles

/-- **A run of compiled code settles the executions of the program**, whatever
the fuel, or it crashes for want of memory. -/
theorem Program.crashes_or_settles {p : Program Span} {a : Assembly}
    (hcompile : p.compile = .ok a) (hplain : p.HasPlainNames) (s : Session) :
    (¬ p.FitsMemory ∧ (a.start s).Crashes a)
      ∨ ∀ fuel, (a.start s).Settles a fuel (p.exec fuel s.world) := by
  obtain ⟨constants, typed, rfl, himplements⟩ :=
    exists_implements hcompile hplain
  rw [fitsMemory_erase]
  -- whether the run crashes has nothing to do with the fuel
  by_cases hcrash : ¬ typed.FitsMemory ∧ (a.start s).Crashes a
  · exact .inl hcrash
  · refine .inr fun fuel => ?_
    rw [exec_erase]
    exact (himplements.settles fuel s).resolve_left hcrash

/-! ## Ends of programs and of code -/

/-- **The end of a program** that starts in a world: how it ends, and the
world then. It does not matter how much fuel is enough. -/
inductive Program.Ends {α : Type} (p : Program α) (w : World) :
    Outcome → World → Prop
  /-- The main script is executed to its end. -/
  | finished {fuel : Nat} {w' : World} (h : p.exec fuel w = .ok () w') :
    p.Ends w .finished w'
  /-- The program fails. -/
  | failed {fuel : Nat} {error : RuntimeError} {w' : World}
    (h : p.exec fuel w = .error (.failed error) w') :
    p.Ends w (.failed error) w'

/-- **A program never ends** if no fuel is enough. -/
def Program.NeverEnds {α : Type} (p : Program α) (w : World) : Prop :=
  ∀ fuel, ∃ w', p.exec fuel w = .error .outOfFuel w'

/-- **A program agrees with code** in a session: they end in the same ways,
and the one never ends if the other does not. -/
structure Program.Agrees {α : Type} (p : Program α) (a : Assembly)
    (s : Session) : Prop where
  /-- The same ends. -/
  ends : ∀ outcome w, a.Ends s outcome w ↔ p.Ends s.world outcome w
  /-- Or none. -/
  neverEnds : a.NeverEnds s ↔ p.NeverEnds s.world

section Agreement

variable {α : Type} {p : Program α} {a : Assembly} {s : Session}

/-- The end of a program is that of code whose runs settle its executions. -/
theorem Program.Ends.of_settles
    (h : ∀ fuel, (a.start s).Settles a fuel (p.exec fuel s.world))
    {outcome : Outcome} {w : World} (hends : p.Ends s.world outcome w) :
    a.Ends s outcome w := by
  rw [Assembly.ends_iff]
  cases hends with
  | @finished fuel w' hexec =>
    have hsettles := h fuel
    rw [hexec] at hsettles
    exact hsettles
  | @failed fuel error w' hexec =>
    have hsettles := h fuel
    rw [hexec] at hsettles
    exact hsettles

/-- **As much fuel as a run has steps is enough.** -/
theorem Program.ends_of_after
    (h : ∀ fuel, (a.start s).Settles a fuel (p.exec fuel s.world)) {n : Nat}
    {outcome : Outcome} {s' : Session}
    (hafter : after a n (a.start s) = .halt outcome s') :
    p.Ends s.world outcome s'.world := by
  have hsettles := h n
  -- no end of the execution but this one is an end of the run
  match hexec : p.exec n s.world with
  | .ok _ w =>
    rw [hexec] at hsettles
    obtain ⟨k, s'', hend, rfl⟩ := hsettles
    obtain ⟨rfl, rfl⟩ := after_unique hafter hend
    exact .finished hexec
  | .error (.failed error) w =>
    rw [hexec] at hsettles
    obtain ⟨k, s'', hend, rfl⟩ := hsettles
    obtain ⟨rfl, rfl⟩ := after_unique hafter hend
    exact .failed hexec
  | .error .stuck _ =>
    rw [hexec] at hsettles
    exact hsettles.elim
  | .error .outOfFuel _ =>
    rw [hexec] at hsettles
    obtain ⟨m, hnext⟩ := hsettles
    rw [hafter] at hnext
    cases hnext

/-- A program agrees with code whose runs settle its executions. -/
theorem Program.Agrees.of_settles
    (h : ∀ fuel, (a.start s).Settles a fuel (p.exec fuel s.world)) :
    p.Agrees a s where
  ends outcome w := by
    refine ⟨fun hends => ?_, Ends.of_settles h⟩
    obtain ⟨n, s', hafter, rfl⟩ := Assembly.ends_iff.mp hends
    exact ends_of_after h hafter
  neverEnds := by
    rw [Assembly.neverEnds_iff]
    constructor
    · intro hnext fuel
      have hsettles := h fuel
      match hexec : p.exec fuel s.world with
      | .error .outOfFuel w => exact ⟨w, rfl⟩
      | .ok _ w | .error (.failed error) w =>
        rw [hexec] at hsettles
        obtain ⟨n, s', hafter, -⟩ := hsettles
        obtain ⟨m, hm⟩ := hnext n
        rw [hafter] at hm
        cases hm
      | .error .stuck _ =>
        rw [hexec] at hsettles
        exact hsettles.elim
    · intro hexec n
      obtain ⟨w, hw⟩ := hexec n
      have hsettles := h n
      rw [hw] at hsettles
      exact hsettles

/-- **A program has one end** in a world if it agrees with code: whatever fuel
is enough for it, the end is that of the run. -/
theorem Program.Agrees.ends_unique (h : p.Agrees a s)
    {outcome outcome' : Outcome} {w w' : World}
    (hends : p.Ends s.world outcome w) (hends' : p.Ends s.world outcome' w') :
    outcome = outcome' ∧ w = w' := by
  obtain ⟨n, s₁, hafter, rfl⟩ :=
    Assembly.ends_iff.mp ((h.ends outcome w).mpr hends)
  obtain ⟨k, s₂, hafter', rfl⟩ :=
    Assembly.ends_iff.mp ((h.ends outcome' w').mpr hends')
  obtain ⟨houtcome, hs⟩ := after_unique hafter hafter'
  exact ⟨houtcome, congrArg Session.world hs⟩

end Agreement

/-! ## The theorem -/

/-- **Compilation is correct**: a program whose names are plain agrees with
the code that it is compiled to, in every session. Where there is no room for
the arguments of a call, the code may crash instead. -/
theorem Program.compile_correct {p : Program Span} {a : Assembly}
    (hcompile : p.compile = .ok a) (hplain : p.HasPlainNames) (s : Session) :
    (¬ p.FitsMemory ∧ ∃ w, a.Ends s .crashed w) ∨ p.Agrees a s := by
  rcases crashes_or_settles hcompile hplain s with
    ⟨hroom, n, s', hafter⟩ | hsettles
  · exact .inl ⟨hroom, s'.world, Assembly.ends_iff.mpr ⟨n, s', hafter, rfl⟩⟩
  · exact .inr (.of_settles hsettles)

/-- The doubling program agrees with its code. -/
theorem Program.compile_correct_doubling : ∃ a, doubling.compile = .ok a
    ∧ doubling.HasPlainNames ∧ ∀ s, doubling.Agrees a s := by
  obtain ⟨a, hcompile⟩ := exists_compile_doubling
  have hplain : doubling.HasPlainNames := ⟨by decide, by decide, by decide⟩
  have hfits : doubling.FitsMemory := by
    unfold FitsMemory
    decide
  exact ⟨a, hcompile, hplain, fun s =>
    (compile_correct hcompile hplain s).resolve_left fun h => h.1 hfits⟩

end Primer
