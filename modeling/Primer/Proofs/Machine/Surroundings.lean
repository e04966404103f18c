import Primer.Machine.Run

/-!
# A run does not see what is around it

A session goes on from run to run: the input that one run has not read is left
to the next, what a run writes is put after what was written before, and steps
and events are added to those that there are. All of that is around a run, and
no instruction looks at it. It cannot tell how much was written, counted or
logged before, and it cannot tell what comes later in the input, as long as
the integers that it asks for are there.

So a run does the same in any session. `Session.within` puts what a session
holds into other surroundings, and an instruction, a step and a run may take
place before or after that (`Instr.execute_within`, `Machine.step_within`,
`Transition.follow_within`). The one exception is a run that comes to the end
of its input, since more input would have let it go on. No frame is part of a
session, so nothing of the calls of an earlier run is left, however that has
ended.
-/

namespace Primer

/-- **What is around a run.** -/
structure Surroundings where
  /-- The text that was written before. -/
  output : String
  /-- The steps that were counted before. -/
  steps : Nat
  /-- What happened before, the latest first. -/
  log : List Event
  /-- The integers that come after those of the run. -/
  input : List Int64

/-- **A session put into surroundings.** -/
def Session.within (s : Session) (c : Surroundings) : Session where
  input := s.input ++ c.input
  output := c.output ++ s.output
  steps := c.steps + s.steps
  log := s.log ++ c.log

/-- What a session surrounds a run with that gets the first part of its input.
-/
def Session.around (s : Session) (later : List Int64) : Surroundings where
  output := s.output
  steps := s.steps
  log := s.log
  input := later

theorem Session.fresh_within_around {s : Session} {first later : List Int64}
    (h : s.input = first ++ later) :
    (fresh first).within (s.around later) = s := by
  obtain ⟨input, output, steps, log⟩ := s
  cases h
  exact congrArg (mk _ · _ _) String.append_empty

/-- **A state put into surroundings**, which leave its frames alone. -/
def Machine.within (m : Machine) (c : Surroundings) : Machine :=
  { m with session := m.session.within c }

/-- **What comes after a state, put into surroundings.** -/
def Transition.within (c : Surroundings) : Transition → Transition
  | next m => next (m.within c)
  | halt outcome s => halt outcome (s.within c)

variable {a : Assembly} {c : Surroundings}

/-! ## One instruction -/

theorem Session.write_within (s : Session) (text : String) :
    (s.within c).write text = (s.write text).within c :=
  congrArg (mk _ · _ _) String.append_assoc

theorem Execution.bind_map {β γ γ' : Type} {x : Execution β}
    {k : β → Execution γ} {l : β → Execution γ'} {f : γ → γ'}
    (h : ∀ b, l b = (k b).map f) : x >>= l = (x >>= k).map f := by
  cases x with
  | ok b => exact h b
  | error outcome => rfl

open Execution in
/-- **An instruction does the same in any surroundings**, unless it asks for
an integer that is not there. -/
theorem Instr.execute_within {i : Instr} {symbols : SymbolTable} {f : Frame}
    {s : Session}
    (h : i.execute symbols f s ≠ .error (.failed .inputExhausted)) :
    i.execute symbols f (s.within c)
      = (i.execute symbols f s).map (Prod.map id (·.within c)) := by
  cases i with
  | label | enter | nop | leave | call | set => rfl
  | move | jump | fetchResult | setResult | loadString | intToStr =>
    exact bind_map fun _ => rfl
  | branchZero | strToInt =>
    exact bind_map fun _ => bind_map fun _ => rfl
  | arith =>
    exact bind_map fun _ => bind_map fun _ => bind_map fun _ => rfl
  | branchCompare =>
    exact bind_map fun _ => bind_map fun _ => bind_map fun _ =>
      bind_map fun _ => rfl
  | setArgument index =>
    refine bind_map fun _ => ?_
    by_cases hroom : index.toNat < argumentRoom
    · rw [if_pos hroom, if_pos hroom]
      rfl
    · rw [if_neg hroom, if_neg hroom]
      rfl
  | printInt | printString =>
    exact bind_map fun _ =>
      congrArg (fun s => Except.ok (f, s)) (s.write_within _)
  | readInt =>
    obtain ⟨input, output, steps, log⟩ := s
    cases input with
    | nil => exact absurd rfl h
    | cons => rfl

/-! ## Steps -/

namespace Machine

theorem enter_within (r : Routine) (args : List Value) (callers : List Frame)
    (s : Session) :
    Machine.enter r args callers (s.within c)
      = (Machine.enter r args callers s).within c := by
  unfold Machine.enter
  simp only
  split <;> rfl

theorem leave_within (f : Frame) (callers : List Frame) (s : Session) :
    leave f callers (s.within c) = (leave f callers s).within c := by
  cases callers <;> rfl

/-- A routine is called alike in any surroundings. -/
theorem call_within (callee : Ident) (f : Frame) (callers : List Frame)
    (s : Session) :
    Machine.call a callee f callers (s.within c)
      = (Machine.call a callee f callers s).within c := by
  unfold Machine.call
  cases a.routine? callee with
  | none => rfl
  | some r =>
    simp only
    cases collect f.arguments 0 f.argumentCount with
    | error index => rfl
    | ok args =>
      exact enter_within r args ({ f with arguments := .empty } :: callers) s

/-- **An instruction is performed alike in any surroundings**, unless the run
ends there for want of input. -/
theorem perform_within {i : Instr} {f : Frame} {callers : List Frame}
    {s : Session}
    (h : ∀ s', perform a i f callers s
      ≠ .halt (.failed .inputExhausted) s') :
    perform a i f callers (s.within c)
      = (perform a i f callers s).within c := by
  by_cases hleave : i = .leave
  · subst hleave
    exact leave_within f callers s
  by_cases hcall : ∃ callee, i = .call callee
  · obtain ⟨callee, rfl⟩ := hcall
    exact call_within callee f callers s
  · have hcall := not_exists.mp hcall
    rw [perform.eq_3 _ _ _ _ _ hleave hcall] at h
    rw [perform.eq_3 _ _ _ _ _ hleave hcall,
      perform.eq_3 _ _ _ _ _ hleave hcall, Instr.execute_within]
    · cases i.execute a.symbols f s <;> rfl
    · intro hinput
      rw [hinput] at h
      exact h s rfl

/-- **A step is made alike in any surroundings**, unless the run ends there
for want of input. -/
theorem step_within {m : Machine}
    (h : ∀ s, m.step a none ≠ .halt (.failed .inputExhausted) s) :
    (m.within c).step a none = (m.step a none).within c := by
  unfold step at h ⊢
  rw [show (m.within c).frame.rest = m.frame.rest from rfl]
  cases hrest : m.frame.rest with
  | nil => exact leave_within m.frame m.callers m.session
  | cons i rest =>
    rw [hrest] at h
    exact perform_within h

end Machine

/-! ## Runs -/

/-- **A run goes alike in any surroundings**, unless it ends for want of
input. -/
theorem Transition.follow_within {horizon : Nat} {tr : Transition}
    {outcome : Outcome} {s : Session}
    (h : tr.follow a none horizon = some (outcome, s))
    (hinput : outcome ≠ .failed .inputExhausted) :
    (tr.within c).follow a none horizon = some (outcome, s.within c) := by
  induction horizon generalizing tr with
  | zero =>
    cases tr with
    | halt => cases h; rfl
    | next => cases h
  | succ horizon ih =>
    cases tr with
    | halt => cases h; rfl
    | next m =>
      have hrest : (m.step a none).follow a none horizon
          = some (outcome, s) := h
      show ((m.within c).step a none).follow a none horizon = _
      rw [Machine.step_within, ih hrest]
      -- a run that ends here for want of input does not end otherwise
      intro s' hstep
      rw [hstep] at hrest
      cases horizon <;> cases hrest <;> exact hinput rfl

/-- **A run is independent of what is around it.** If a fresh session over
some input ends, and not for want of input, then every session in which that
input comes first ends in the same way after the same number of transitions.
What the run wrote, counted and logged comes after what was there before, and
what it did not read of its input comes before the rest.

Nothing is asked of the session, so it may be what earlier runs have left,
however these ended. -/
theorem Assembly.run_in_session {horizon : Nat} {first : List Int64}
    {outcome : Outcome} {s' : Session}
    (hrun : a.run none horizon (.fresh first) = some (outcome, s'))
    (hinput : outcome ≠ .failed .inputExhausted) (s : Session)
    (later : List Int64) (hs : s.input = first ++ later) :
    ∃ s'', a.run none horizon s = some (outcome, s'')
      ∧ s''.output = s.output ++ s'.output
      ∧ s''.input = s'.input ++ later
      ∧ s''.steps = s.steps + s'.steps
      ∧ s''.events = s.events ++ s'.events := by
  have hstart : a.run none horizon s
      = ((Machine.enter a.main [] [] (.fresh first)).within
        (s.around later)).follow a none horizon := by
    rw [← Machine.enter_within, Session.fresh_within_around hs]
    rfl
  exact ⟨s'.within (s.around later),
    hstart.trans (Transition.follow_within hrun hinput), rfl, rfl, rfl,
    List.reverse_append⟩

/-- Code that reads an integer and writes it. -/
def Assembly.echo : Assembly where
  routines := []
  main := ⟨⟨"main", [], .unit, .nested 0⟩,
    [.readInt "n", .printInt "n", .leave]⟩
  symbols := .empty

/-- The second run of a session echoes the second integer, and the first run
does not show in it. -/
theorem Assembly.echo_run_in_session :
    ∃ s s'', echo.run none 4 (.fresh [3, 5, 8]) = some (.finished, s)
      ∧ echo.run none 4 s = some (.finished, s'')
      ∧ s''.output = s.output ++ "5" ∧ s''.input = [8]
      ∧ s''.steps = s.steps + 3 := by
  have hfirst : (echo.run none 4 (.fresh [3, 5, 8])).map
      (fun r => (r.1, r.2.input)) = some (.finished, [5, 8]) := by decide
  have hfresh : (echo.run none 4 (.fresh [5])).map
      (fun r => (r.1, r.2.output, r.2.input, r.2.steps))
        = some (.finished, "5", [], 3) := by decide
  obtain ⟨⟨_, s⟩, hrun, hs⟩ := Option.map_eq_some_iff.mp hfirst
  obtain ⟨⟨_, s'⟩, hrun', hs'⟩ := Option.map_eq_some_iff.mp hfresh
  simp only [Prod.mk.injEq] at hs hs'
  obtain ⟨rfl, hinput⟩ := hs
  obtain ⟨rfl, houtput, hread, hsteps⟩ := hs'
  obtain ⟨s'', hrun'', hw, hr, hn, -⟩ :=
    run_in_session hrun' nofun s [8] hinput
  rw [houtput] at hw
  rw [hread] at hr
  rw [hsteps] at hn
  exact ⟨s, s'', hrun, hrun'', hw, hr, hn⟩

end Primer
