import Primer.Machine.Run
import Primer.Proofs.Semantics.Evaluator

/-!
# Runs that realize evaluations

What it means that the machine does what the evaluator does. From some state
on, the run *realizes* an evaluation if it comes to a good state when the
evaluation has a value, fails when the evaluation fails, in the same way, and
goes on for some time when the evaluation is out of fuel. For how long is the
`bound`: an evaluation that is out of fuel whatever the fuel is realized by a
run that does not end. No run realizes an evaluation that is stuck.

The world is the part of a session that programs know of. Steps and the log
play no part here, and so runs from states that differ in these are not told
apart: `Frame.Runs` is about all states with a frame and a world.

A machine whose memory has no `room` for the arguments of a call may crash
instead. That is allowed in a run that realizes an evaluation unless there is
room.

Evaluations are put together by `>>=`, and so are runs (`Frame.Runs.bind`). A
step of the machine in front of a run is one more step of the bound
(`Frame.Runs.step`).
-/

namespace Primer

/-- The part of a session that programs know of. -/
def Session.world (s : Session) : World := ⟨s.input, s.output⟩

/-! ## Transitions -/

namespace Transition

/-- **What comes of a transition some steps later**, without a limit. -/
def after (a : Assembly) : Nat → Transition → Transition
  | 0, tr => tr
  | _ + 1, .halt outcome session => .halt outcome session
  | n + 1, .next m => after a n (m.step a none)

variable {a : Assembly} {tr : Transition} {n k : Nat} {m : Machine}

@[simp] theorem after_halt (n : Nat) (outcome : Outcome) (s : Session) :
    after a n (.halt outcome s) = .halt outcome s := by
  cases n <;> rfl

/-- Some steps and then some more are the sum of steps. -/
theorem after_add (n k : Nat) (tr : Transition) :
    after a (n + k) tr = after a k (after a n tr) := by
  induction n generalizing tr with
  | zero => rw [Nat.zero_add]; rfl
  | succ n ih =>
    cases tr with
    | halt outcome s => rw [after_halt, after_halt, after_halt]
    | next m =>
      rw [Nat.succ_add]
      exact ih (m.step a none)

/-- A run that goes on has not ended before. -/
theorem after_eq_next (h : after a n tr = .next m) (hk : k ≤ n) :
    ∃ m', after a k tr = .next m' := by
  cases hafter : after a k tr with
  | next m' => exact ⟨m', rfl⟩
  | halt outcome s =>
    obtain ⟨j, rfl⟩ := Nat.exists_eq_add_of_le hk
    rw [after_add, hafter, after_halt] at h
    cases h

/-- **Following a run** over a horizon is to see whether it has ended by then.
-/
theorem follow_eq_some {outcome : Outcome} {s : Session} :
    tr.follow a none n = some (outcome, s)
      ↔ after a n tr = .halt outcome s := by
  induction n generalizing tr with
  | zero => cases tr <;> simp [follow, after]
  | succ n ih => cases tr with
    | halt => simp [follow]
    | next m => exact ih

/-- **A run has one end.** -/
theorem after_unique {n k : Nat} {outcome outcome' : Outcome}
    {s s' : Session} (h : after a n tr = .halt outcome s)
    (h' : after a k tr = .halt outcome' s') : outcome = outcome' ∧ s = s' := by
  rcases Nat.le_total n k with hle | hle
  · obtain ⟨j, rfl⟩ := Nat.exists_eq_add_of_le hle
    rw [after_add, h, after_halt] at h'
    cases h'
    exact ⟨rfl, rfl⟩
  · obtain ⟨j, rfl⟩ := Nat.exists_eq_add_of_le hle
    rw [after_add, h', after_halt] at h
    cases h
    exact ⟨rfl, rfl⟩

end Transition

/-! ## Ends of runs -/

/-- A run of a program starts in the main routine. -/
def Assembly.start (a : Assembly) (s : Session) : Transition :=
  Machine.enter a.main [] [] s

open Transition

/-- **The end of a run without a step limit**: how it ends, and the world
then. -/
def Assembly.Ends (a : Assembly) (s : Session) (outcome : Outcome)
    (w : World) : Prop :=
  ∃ horizon s', a.run none horizon s = some (outcome, s') ∧ s'.world = w

/-- **A run without a step limit never ends.** -/
def Assembly.NeverEnds (a : Assembly) (s : Session) : Prop :=
  ∀ horizon, a.run none horizon s = none

theorem Assembly.ends_iff {a : Assembly} {s : Session} {outcome : Outcome}
    {w : World} : a.Ends s outcome w
      ↔ ∃ n s', after a n (a.start s) = .halt outcome s' ∧ s'.world = w := by
  simp only [Ends, run, follow_eq_some, start]

/-- A run that never ends goes on. -/
theorem Assembly.neverEnds_iff {a : Assembly} {s : Session} :
    a.NeverEnds s ↔ ∀ n, ∃ m, after a n (a.start s) = .next m := by
  refine forall_congr' fun n => ?_
  show (a.start s).follow a none n = none ↔ _
  cases hafter : after a n (a.start s) with
  | next m =>
    refine iff_of_true (Option.eq_none_iff_forall_ne_some.mpr ?_) ⟨m, rfl⟩
    rintro ⟨outcome, s'⟩ h
    rw [follow_eq_some, hafter] at h
    cases h
  | halt outcome s' =>
    rw [← follow_eq_some] at hafter
    simp [hafter]

namespace Transition

variable {a : Assembly} {tr : Transition} {n k : Nat}

/-! ## Realizing an evaluation -/

/-- The run crashes. -/
def Crashes (a : Assembly) (tr : Transition) : Prop :=
  ∃ n s, after a n tr = .halt .crashed s

/-- **The run from a transition on realizes an evaluation** with a result, the
callers being as they are now when the evaluation has a value. -/
def Realizes {β : Type} (a : Assembly) (room : Prop) (bound : Nat)
    (callers : List Frame) (good : β → Frame → Prop) (tr : Transition)
    (result : EStateM.Result Stop World β) : Prop :=
  (¬ room ∧ tr.Crashes a) ∨ match result with
    | .ok b w => ∃ n m, after a n tr = .next m ∧ m.callers = callers
      ∧ good b m.frame ∧ m.session.world = w
    | .error (.failed error) w =>
      ∃ n s, after a n tr = .halt (.failed error) s ∧ s.world = w
    | .error .stuck _ => False
    | .error .outOfFuel _ => ∃ m, after a bound tr = .next m

namespace Realizes

variable {β : Type} {room : Prop} {bound : Nat} {callers : List Frame}
  {good good' : β → Frame → Prop} {result : EStateM.Result Stop World β}

/-- A run may be followed for a shorter time and come to a state that is good
for a weaker reason. -/
theorem mono (h : tr.Realizes a room bound callers good result)
    (hk : k ≤ bound) (hgood : ∀ b f, good b f → good' b f) :
    tr.Realizes a room k callers good' result := by
  refine h.imp_right fun h => ?_
  match result with
  | .ok b w =>
    obtain ⟨n, m, hafter, hcallers, hb, hw⟩ := h
    exact ⟨n, m, hafter, hcallers, hgood _ _ hb, hw⟩
  | .error (.failed error) w => exact h
  | .error .stuck _ => exact h
  | .error .outOfFuel _ =>
    obtain ⟨m, hafter⟩ := h
    exact after_eq_next hafter hk

/-- **Steps in front** of a run that realizes an evaluation count for its
bound. -/
theorem of_after (h : (after a n tr).Realizes a room bound callers good result)
    : tr.Realizes a room (n + bound) callers good result := by
  refine h.imp ?_ fun h => ?_
  · rintro ⟨hroom, k, s, hafter⟩
    exact ⟨hroom, n + k, s, (after_add n k tr).trans hafter⟩
  · match result with
    | .ok b w =>
      obtain ⟨k, m, hafter, hgood⟩ := h
      exact ⟨n + k, m, (after_add n k tr).trans hafter, hgood⟩
    | .error (.failed error) w =>
      obtain ⟨k, s, hafter, hw⟩ := h
      exact ⟨n + k, s, (after_add n k tr).trans hafter, hw⟩
    | .error .stuck _ => exact h
    | .error .outOfFuel _ =>
      obtain ⟨m, hafter⟩ := h
      exact ⟨m, (after_add n bound tr).trans hafter⟩

end Realizes

end Transition

/-! ## Runs from a frame -/

/-- The frame with other code still to be executed. -/
def Frame.withRest (f : Frame) (rest : Code) : Frame := { f with rest := rest }

/-- **The run from a frame on realizes an evaluation**, in whatever state the
frame and the world are those. -/
def Frame.Runs {β : Type} (a : Assembly) (room : Prop) (bound : Nat)
    (callers : List Frame) (f : Frame) (w : World)
    (good : β → Frame → Prop) (result : EStateM.Result Stop World β) : Prop :=
  ∀ m : Machine, m.frame = f → m.callers = callers → m.session.world = w →
    (Transition.next m).Realizes a room bound callers good result

/-- **An instruction does its work**: from a frame and a world it takes the
machine to a frame and a world. -/
def Instr.Does (a : Assembly) (i : Instr) (f : Frame) (w : World)
    (f' : Frame) (w' : World) : Prop :=
  ∀ callers s, s.world = w → ∃ s', s'.world = w'
    ∧ Machine.perform a i f callers s = .next ⟨f', callers, s'⟩

/-- **An instruction fails.** -/
def Instr.Fails (a : Assembly) (i : Instr) (f : Frame) (w : World)
    (error : RuntimeError) : Prop :=
  ∀ callers s, s.world = w → ∃ s', s'.world = w
    ∧ Machine.perform a i f callers s = .halt (.failed error) s'

theorem Machine.step_none {a : Assembly} {m : Machine} {i : Instr}
    {rest : Code} (h : m.frame.rest = i :: rest) :
    m.step a none = perform a i (m.frame.withRest rest) m.callers
      (m.session.countStep.record (.step m.frame.name i)) := by
  rw [step, h]
  rfl

namespace Frame.Runs

variable {β γ : Type} {a : Assembly} {room : Prop} {bound k : Nat}
  {callers : List Frame} {f f' : Frame} {w w' : World}
  {good good' : β → Frame → Prop} {result : EStateM.Result Stop World β}

/-- A run may be followed for a shorter time and come to a state that is good
for a weaker reason. -/
theorem mono (h : f.Runs a room bound callers w good result)
    (hk : k ≤ bound) (hgood : ∀ b f', good b f' → good' b f') :
    f.Runs a room k callers w good' result :=
  fun m hf hcallers hw => (h m hf hcallers hw).mono hk hgood

theorem mono_good (h : f.Runs a room bound callers w good result)
    (hgood : ∀ b f', good b f' → good' b f') :
    f.Runs a room bound callers w good' result :=
  h.mono (Nat.le_refl _) hgood

theorem pure {b : β} (h : good b f) :
    f.Runs a room bound callers w good (.ok b w) := by
  rintro m rfl rfl rfl
  exact Or.inr ⟨0, m, rfl, rfl, h, rfl⟩

/-- **Two evaluations, one after the other, are realized by two runs.** -/
theorem bind {goodX : γ → Frame → Prop} {x : Eval γ} {next : γ → Eval β}
    (hx : f.Runs a room bound callers w goodX (x w))
    (hnext : ∀ b f' w', x w = .ok b w' → goodX b f' →
      f'.Runs a room bound callers w' good (next b w')) :
    f.Runs a room bound callers w good ((x >>= next) w) := by
  intro m hf hcallers hw
  have hrun := hx m hf hcallers hw
  show (Transition.next m).Realizes a room bound callers good
    (EStateM.bind x next w)
  unfold EStateM.bind
  -- an evaluation that stops in the first part stops as a whole
  revert hrun hnext
  match x w with
  | .ok b w' =>
    rintro hnext (hcrash | ⟨n, m', hafter, hcallers', hgood, hw'⟩)
    · exact Or.inl hcrash
    · have hrest := hnext b m'.frame w' rfl hgood m' rfl hcallers' hw'
      rw [← hafter] at hrest
      exact hrest.of_after.mono (Nat.le_add_left _ _) fun _ _ => id
  | .error (.failed error) w' => exact fun _ hrun => hrun
  | .error .stuck _ => exact fun _ hrun => hrun
  | .error .outOfFuel _ => exact fun _ hrun => hrun

/-- **A run that goes on** after the evaluation has its value. -/
theorem andThen {goodX : β → Frame → Prop} {x : Eval β}
    (hx : f.Runs a room bound callers w goodX (x w))
    (hnext : ∀ b f' w', x w = .ok b w' → goodX b f' →
      f'.Runs a room bound callers w' good (.ok b w')) :
    f.Runs a room bound callers w good (x w) := by
  rw [← bind_pure x]
  exact hx.bind hnext

/-- **A step in front of a run.** -/
theorem step {i : Instr} {rest : Code} (hrest : f.rest = i :: rest)
    (hi : i.Does a (f.withRest rest) w f' w')
    (h : f'.Runs a room bound callers w' good result) :
    f.Runs a room (bound + 1) callers w good result := by
  rintro m rfl rfl rfl
  obtain ⟨s', hw', hstep⟩ := hi m.callers
    (m.session.countStep.record (.step m.frame.name i)) rfl
  rw [← Machine.step_none hrest] at hstep
  rw [Nat.add_comm]
  refine Transition.Realizes.of_after ?_
  show (m.step a none).Realizes a room bound m.callers good result
  rw [hstep]
  exact h ⟨f', m.callers, s'⟩ rfl rfl hw'

theorem step_le {i : Instr} {rest : Code} (hrest : f.rest = i :: rest)
    (hi : i.Does a (f.withRest rest) w f' w')
    (h : f'.Runs a room bound callers w' good result) :
    f.Runs a room bound callers w good result :=
  (h.step hrest hi).mono (Nat.le_succ _) fun _ _ => id

/-- **A failure.** -/
theorem fail {i : Instr} {rest : Code} {error : RuntimeError}
    (hrest : f.rest = i :: rest)
    (hi : i.Fails a (f.withRest rest) w error) :
    f.Runs a room bound callers w good (.error (.failed error) w) := by
  rintro m rfl rfl rfl
  obtain ⟨s', hw', hstep⟩ := hi m.callers
    (m.session.countStep.record (.step m.frame.name i)) rfl
  rw [← Machine.step_none hrest] at hstep
  exact Or.inr ⟨1, s', hstep, hw'⟩

theorem last {i : Instr} {rest : Code} {b : β} (hrest : f.rest = i :: rest)
    (hi : i.Does a (f.withRest rest) w f' w') (h : good b f') :
    f.Runs a room bound callers w good (.ok b w') :=
  step_le hrest hi (pure h)

end Frame.Runs

end Primer
