import Primer.Proofs.Machine.Runs

/-!
# Runs with a step limit

A run with a step limit is a run without one that is cut off. Up to the limit
the two go alike. The step over the limit is counted, and nothing else is done
for it: it is not logged, and its instruction is not executed. So a run that
is cut off leaves the session of the moment before that step, with one step
more (`Assembly.IsCutOff`).

A run cannot go on for ever without counting. The one transition that counts
nothing is the end of a routine whose code has run out, and that takes a frame
away (`Transition.exists_lt_steps`). Hence every run with a limit ends, and one
that would never end without it ends at the limit.

Steps are counted apart from the log. The two differ by the steps over the
limit, one for each run that was cut off (`Transition.follow_counts`).
-/

namespace Primer

/-! ## What is counted -/

/-- **The instructions that were executed**, as far as the log goes. -/
def Session.executed (s : Session) : Nat := s.log.countP fun e => !e.isCall

@[simp] theorem Session.executed_record_call (s : Session) (routine : Ident)
    (args : List Value) :
    (s.record (.call routine args)).executed = s.executed := rfl

@[simp] theorem Session.executed_record_step (s : Session) (routine : Ident)
    (i : Instr) : (s.record (.step routine i)).executed = s.executed + 1 :=
  List.countP_cons_of_pos rfl

@[simp] theorem Session.steps_countStep (s : Session) :
    s.countStep.steps = s.steps + 1 := rfl

@[simp] theorem Session.executed_countStep (s : Session) :
    s.countStep.executed = s.executed := rfl

/-- Whether a run has ended at its step limit. -/
def Outcome.isLimit : Outcome → Bool
  | failed (.stepLimit _) => true
  | _ => false

namespace Transition

/-- The session after a transition. -/
def session : Transition → Session
  | next m => m.session
  | halt _ s => s

/-- Whether a run has ended at its step limit. -/
def isLimit : Transition → Bool
  | next _ => false
  | halt outcome _ => outcome.isLimit

/-- **A transition counts nothing more** than a session: neither steps nor
instructions, and it is not at the step limit. -/
structure KeepsCount (s : Session) (tr : Transition) : Prop where
  /-- No step is counted. -/
  steps : tr.session.steps = s.steps
  /-- No instruction is logged. -/
  executed : tr.session.executed = s.executed
  /-- The run does not end at the limit. -/
  isLimit : tr.isLimit = false

end Transition

/-! ## One instruction -/

/-- **An execution leaves the counting alone**: it does not end at the step
limit, and its result is as it should be. -/
def Execution.Spares {β : Type} (post : β → Prop) (x : Execution β) : Prop :=
  match x with
  | .ok b => post b
  | .error outcome => outcome.isLimit = false

namespace Execution

variable {β γ : Type}

/-- **One execution after the other.** -/
theorem Spares.bind {x : Execution β} (h : Spares (fun _ => True) x)
    {post : γ → Prop} {k : β → Execution γ} (hk : ∀ b, Spares post (k b)) :
    Spares post (x >>= k) := by
  cases x with
  | ok b => exact hk b
  | error outcome => exact h

theorem spares_orFail {value? : Option β} {error : RuntimeError}
    (h : (Outcome.failed error).isLimit = false) :
    Spares (fun _ => True) (orFail value? error) := by
  cases value? with
  | some b => exact trivial
  | none => exact h

theorem spares_get (f : Frame) (slot : Slot) :
    Spares (fun _ => True) (f.get slot) := spares_orFail rfl

theorem spares_getInt (f : Frame) (slot : Slot) :
    Spares (fun _ => True) (f.getInt slot) :=
  (spares_get f slot).bind fun value => by
    cases value with
    | int n => exact trivial
    | str s => exact rfl

theorem spares_getStr (f : Frame) (slot : Slot) :
    Spares (fun _ => True) (f.getStr slot) :=
  (spares_get f slot).bind fun value => by
    cases value with
    | int n => exact rfl
    | str s => exact trivial

theorem spares_goTo (f : Frame) (label : Label) :
    Spares (fun _ => True) (f.goTo label) :=
  (spares_orFail rfl).bind fun _ => trivial

end Execution

open Execution in
/-- **An instruction leaves the counting alone.** -/
theorem Instr.spares_execute (i : Instr) (symbols : SymbolTable) (f : Frame)
    (s : Session) :
    Spares (fun r => r.2.steps = s.steps ∧ r.2.log = s.log)
      (i.execute symbols f s) := by
  cases i with
  | label | enter | nop | leave | call | set => exact ⟨rfl, rfl⟩
  | move | setResult => exact (spares_get f _).bind fun _ => ⟨rfl, rfl⟩
  | fetchResult | loadString =>
    exact (spares_orFail rfl).bind fun _ => ⟨rfl, rfl⟩
  | printInt | intToStr =>
    exact (spares_getInt f _).bind fun _ => ⟨rfl, rfl⟩
  | printString => exact (spares_getStr f _).bind fun _ => ⟨rfl, rfl⟩
  | strToInt =>
    exact (spares_getStr f _).bind fun _ =>
      (spares_orFail rfl).bind fun _ => ⟨rfl, rfl⟩
  | arith =>
    exact (spares_getInt f _).bind fun _ => (spares_getInt f _).bind fun _ =>
      (spares_orFail rfl).bind fun _ => ⟨rfl, rfl⟩
  | jump => exact (spares_goTo f _).bind fun _ => ⟨rfl, rfl⟩
  | branchCompare =>
    exact (spares_get f _).bind fun _ => (spares_get f _).bind fun _ =>
      (spares_orFail rfl).bind fun _ => (spares_goTo f _).bind fun _ =>
        ⟨rfl, rfl⟩
  | branchZero =>
    exact (spares_getInt f _).bind fun _ => (spares_goTo f _).bind fun _ =>
      ⟨rfl, rfl⟩
  | setArgument index =>
    refine (spares_get f _).bind fun _ => ?_
    by_cases hroom : index.toNat < argumentRoom
    · rw [if_pos hroom]
      exact ⟨rfl, rfl⟩
    · rw [if_neg hroom]
      exact rfl
  | readInt =>
    obtain ⟨input, output, steps, log⟩ := s
    cases input with
    | nil => exact rfl
    | cons => exact ⟨rfl, rfl⟩

namespace Machine

variable {a : Assembly} {limit : Nat}

theorem enter_keepsCount (r : Routine) (args : List Value)
    (callers : List Frame) (s : Session) :
    (Machine.enter r args callers s).KeepsCount s := by
  unfold Machine.enter
  simp only
  split <;> exact ⟨rfl, rfl, rfl⟩

theorem leave_session (f : Frame) (callers : List Frame) (s : Session) :
    (leave f callers s).session = s ∧ (leave f callers s).isLimit = false := by
  cases callers <;> exact ⟨rfl, rfl⟩

/-- **Performing an instruction counts nothing**, since its step has been
counted. -/
theorem perform_keepsCount (i : Instr) (f : Frame) (callers : List Frame)
    (s : Session) : (perform a i f callers s).KeepsCount s := by
  unfold perform
  split
  · obtain ⟨hsession, hlimit⟩ := leave_session f callers s
    exact ⟨congrArg _ hsession, congrArg _ hsession, hlimit⟩
  · unfold Machine.call
    split
    · exact ⟨rfl, rfl, rfl⟩
    · split
      · exact ⟨rfl, rfl, rfl⟩
      · exact enter_keepsCount _ _ _ s
  · have hspares := Instr.spares_execute i a.symbols f s
    split
    · next hexecute =>
      rw [hexecute] at hspares
      exact ⟨hspares.1, congrArg (List.countP _) hspares.2, rfl⟩
    · next hexecute =>
      rw [hexecute] at hspares
      exact ⟨rfl, rfl, hspares⟩

/-! ## One step -/

/-- **The end of a routine whose code has run out** counts nothing. It is the
same with any limit. -/
theorem step_of_rest_eq_nil {m : Machine} (h : m.frame.rest = [])
    (limit : Option Nat) :
    m.step a limit = leave m.frame m.callers m.session := by
  rw [step, h]

/-- **Any other step is counted.** -/
theorem steps_step {m : Machine} (h : m.frame.rest ≠ []) :
    (m.step a none).session.steps = m.session.steps + 1 := by
  obtain ⟨i, rest, hrest⟩ := List.exists_cons_of_ne_nil h
  rw [step_none hrest]
  exact (perform_keepsCount i _ _ _).steps

/-- The count never goes back. -/
theorem steps_le_step (m : Machine) :
    m.session.steps ≤ (m.step a none).session.steps := by
  by_cases h : m.frame.rest = []
  · rw [step_of_rest_eq_nil h]
    exact Nat.le_of_eq (congrArg _ (leave_session _ _ _).1.symm)
  · rw [steps_step h]
    exact Nat.le_succ _

/-- **A step within the limit** is made as it is without one. -/
theorem step_of_steps_le {m : Machine}
    (h : (m.step a none).session.steps ≤ limit) :
    m.step a (some limit) = m.step a none := by
  by_cases hnil : m.frame.rest = []
  · rw [step_of_rest_eq_nil hnil, step_of_rest_eq_nil hnil]
  · rw [steps_step hnil] at h
    have hnone : exceeded? (some limit) m.session.countStep.steps = none :=
      Option.filter_eq_none_iff.mpr fun l hl => by
        cases hl
        exact mt of_decide_eq_true (Nat.not_lt_of_le h)
    obtain ⟨i, rest, hrest⟩ := List.exists_cons_of_ne_nil hnil
    rw [step, step, hrest]
    simp only [hnone]
    rfl

/-- **The step over the limit** is counted, and that is all. -/
theorem step_of_le {m : Machine} (hrest : m.frame.rest ≠ [])
    (h : limit ≤ m.session.steps) :
    m.step a (some limit)
      = .halt (.failed (.stepLimit limit)) m.session.countStep := by
  have hsome : exceeded? (some limit) m.session.countStep.steps = some limit :=
    Option.filter_eq_some_iff.mpr
      ⟨rfl, decide_eq_true (Nat.lt_succ_of_le h)⟩
  obtain ⟨i, rest, hrest⟩ := List.exists_cons_of_ne_nil hrest
  rw [step, hrest]
  simp only [hsome]

/-- **A step is made as it is without a limit, or it is over the limit.** -/
theorem step_limit (a : Assembly) (limit : Option Nat) (m : Machine) :
    m.step a limit = m.step a none ∨ ∃ l, limit = some l ∧ m.step a limit
      = .halt (.failed (.stepLimit l)) m.session.countStep := by
  unfold step
  cases m.frame.rest with
  | nil => exact Or.inl rfl
  | cons i rest =>
    cases hexceeded : exceeded? limit m.session.countStep.steps with
    | none => exact Or.inl (by simp only [hexceeded]; rfl)
    | some l =>
      have hlimit := (Option.filter_eq_some_iff.mp hexceeded).1
      exact Or.inr ⟨l, hlimit, by simp only [hexceeded]⟩

/-- **A step without a limit is counted and executed**, or neither. -/
theorem step_counts {m : Machine} {more : Nat}
    (h : m.session.steps = m.session.executed + more) :
    (m.step a none).isLimit = false ∧ (m.step a none).session.steps
      = (m.step a none).session.executed + more := by
  cases hrest : m.frame.rest with
  | nil =>
    obtain ⟨hsession, hlimit⟩ := leave_session m.frame m.callers m.session
    rw [step_of_rest_eq_nil hrest, hsession]
    exact ⟨hlimit, h⟩
  | cons i rest =>
    rw [step_none hrest]
    have hkeeps := perform_keepsCount (a := a) i (m.frame.withRest rest)
      m.callers (m.session.countStep.record (.step m.frame.name i))
    refine ⟨hkeeps.isLimit, ?_⟩
    rw [hkeeps.steps, hkeeps.executed, Session.executed_record_step,
      Session.executed_countStep, Nat.add_right_comm, ← h]
    rfl

end Machine

/-! ## Runs -/

namespace Transition

variable {a : Assembly} {limit n : Nat} {tr : Transition}

/-- The count never goes back in a run. -/
theorem steps_le_after (n : Nat) (tr : Transition) :
    tr.session.steps ≤ (after a n tr).session.steps := by
  induction n generalizing tr with
  | zero => exact Nat.le_refl _
  | succ n ih =>
    cases tr with
    | halt => exact Nat.le_refl _
    | next m => exact Nat.le_trans m.steps_le_step (ih (m.step a none))

/-- **A run with a step limit** comes to the limit, or it ends as it does
without one. -/
theorem follow_limit {limit : Option Nat} {outcome : Outcome} {s : Session}
    (h : tr.follow a limit n = some (outcome, s)) :
    (∃ l, limit = some l ∧ outcome = .failed (.stepLimit l))
      ∨ after a n tr = .halt outcome s := by
  induction n generalizing tr with
  | zero => cases tr with
    | halt outcome' s' =>
      cases h
      exact Or.inr rfl
    | next m => cases h
  | succ n ih => cases tr with
    | halt outcome' s' =>
      cases h
      exact Or.inr rfl
    | next m =>
      have hrest : (m.step a limit).follow a limit n = some (outcome, s) := h
      rcases m.step_limit a limit with hstep | ⟨l, hlimit, hstep⟩
      · rw [hstep] at hrest
        exact ih hrest
      · rw [hstep] at hrest
        cases n <;> cases hrest <;> exact Or.inl ⟨l, hlimit, rfl⟩

/-- **A run that counts no more steps than the limit** goes as it does without
one. -/
theorem follow_of_le {outcome : Outcome} {s : Session}
    (h : after a n tr = .halt outcome s) (hs : s.steps ≤ limit) :
    tr.follow a (some limit) n = some (outcome, s) := by
  induction n generalizing tr with
  | zero =>
    cases tr with
    | halt => cases h; rfl
    | next => cases h
  | succ n ih =>
    cases tr with
    | halt => cases h; rfl
    | next m =>
      have hrest : after a n (m.step a none) = .halt outcome s := h
      have hle := steps_le_after (a := a) n (m.step a none)
      rw [hrest] at hle
      show (m.step a (some limit)).follow a (some limit) n = _
      rw [Machine.step_of_steps_le (Nat.le_trans hle hs)]
      exact ih hrest

/-- **A run with a limit is cut off** at the moment at which a run without one
is about to count the step over the limit. -/
theorem follow_of_after {m : Machine} (h : after a n tr = .next m)
    (hrest : m.frame.rest ≠ []) (hsteps : m.session.steps = limit) :
    tr.follow a (some limit) (n + 1)
      = some (.failed (.stepLimit limit), m.session.countStep) := by
  induction n generalizing tr with
  | zero =>
    cases h
    show (m.step a (some limit)).follow a (some limit) 0 = _
    rw [Machine.step_of_le hrest (Nat.le_of_eq hsteps.symm)]
    rfl
  | succ n ih =>
    cases tr with
    | halt => cases h
    | next m₀ =>
      have hlater : after a n (m₀.step a none) = .next m := h
      have hle := steps_le_after (a := a) n (m₀.step a none)
      rw [hlater] at hle
      show (m₀.step a (some limit)).follow a (some limit) (n + 1) = _
      rw [Machine.step_of_steps_le (Nat.le_trans hle (Nat.le_of_eq hsteps))]
      exact ih hlater

/-- **A run that counts more steps than the limit** comes to the moment at
which it is about to count the step over the limit. -/
theorem exists_moment (h : tr.session.steps ≤ limit)
    (hlater : limit < (after a n tr).session.steps) :
    ∃ k m, after a k tr = .next m ∧ m.frame.rest ≠ []
      ∧ m.session.steps = limit := by
  induction n generalizing tr with
  | zero => exact absurd hlater (Nat.not_lt_of_le h)
  | succ n ih =>
    cases tr with
    | halt => exact absurd hlater (Nat.not_lt_of_le h)
    | next m =>
      by_cases hnow : m.frame.rest ≠ [] ∧ m.session.steps = limit
      · exact ⟨0, m, rfl, hnow⟩
      · -- otherwise the next transition counts no step over the limit
        have hstep : (m.step a none).session.steps ≤ limit := by
          by_cases hnil : m.frame.rest = []
          · rw [Machine.step_of_rest_eq_nil hnil,
              (Machine.leave_session _ _ _).1]
            exact h
          · rw [Machine.steps_step hnil]
            exact Nat.lt_of_le_of_ne h fun heq => hnow ⟨hnil, heq⟩
        obtain ⟨k, m', hk, hm'⟩ := ih hstep hlater
        exact ⟨k + 1, m', hk, hm'⟩

theorem steps_lt_after {m : Machine} (h : m.frame.rest ≠ []) :
    m.session.steps < (after a 1 (.next m)).session.steps :=
  Nat.lt_of_lt_of_eq (Nat.lt_succ_self _) (Machine.steps_step h).symm

/-- **A run that goes on for ever goes on counting.** The induction is on the
calls that wait: a transition that counts nothing ends one of them. -/
theorem exists_lt_steps (h : ∀ n, ∃ m, after a n tr = .next m) :
    ∃ n, tr.session.steps < (after a n tr).session.steps := by
  obtain ⟨m, rfl⟩ : ∃ m, tr = .next m := h 0
  obtain ⟨callers, hcallers⟩ : ∃ callers, m.callers = callers := ⟨_, rfl⟩
  induction callers generalizing m with
  | nil =>
    refine ⟨1, steps_lt_after fun hnil => ?_⟩
    -- the end of the last call would be the end of the run
    obtain ⟨m', hm'⟩ := h 1
    have hstep : m.step a none = .next m' := hm'
    rw [Machine.step_of_rest_eq_nil hnil, hcallers] at hstep
    cases hstep
  | cons caller callers ih =>
    by_cases hnil : m.frame.rest = []
    · have hstep : m.step a none = .next ⟨{ caller with
          received := m.frame.result }, callers, m.session⟩ := by
        rw [Machine.step_of_rest_eq_nil hnil, hcallers]
        rfl
      have hlater (n : Nat) : after a (n + 1) (.next m) = after a n (.next
          ⟨{ caller with received := m.frame.result }, callers, m.session⟩) :=
        congrArg (after a n) hstep
      obtain ⟨n, hn⟩ := ih _ (fun n => hlater n ▸ h (n + 1)) rfl
      refine ⟨n + 1, ?_⟩
      rw [hlater]
      exact hn
    · exact ⟨1, steps_lt_after hnil⟩

/-- A run that goes on for ever comes to any number of steps. -/
theorem exists_le_steps (h : ∀ n, ∃ m, after a n tr = .next m) (steps : Nat) :
    ∃ n, steps ≤ (after a n tr).session.steps := by
  induction steps with
  | zero => exact ⟨0, Nat.zero_le _⟩
  | succ steps ih =>
    obtain ⟨n, hn⟩ := ih
    have hrest (k : Nat) : ∃ m, after a k (after a n tr) = .next m := by
      rw [← after_add]
      exact h (n + k)
    obtain ⟨k, hk⟩ := exists_lt_steps hrest
    refine ⟨n + k, ?_⟩
    rw [after_add]
    exact Nat.lt_of_le_of_lt hn hk

/-- **What a run counts and does not execute** is the step over the limit, if
it ends there. -/
theorem follow_counts {limit : Option Nat} {outcome : Outcome} {s : Session}
    (h : tr.follow a limit n = some (outcome, s)) {more : Nat}
    (htr : tr.isLimit = false)
    (hmore : tr.session.steps = tr.session.executed + more) :
    s.steps = s.executed + more + outcome.isLimit.toNat := by
  induction n generalizing tr with
  | zero =>
    cases tr with
    | next => cases h
    | halt =>
      cases h
      rw [show outcome.isLimit = false from htr]
      exact hmore
  | succ n ih =>
    cases tr with
    | halt =>
      cases h
      rw [show outcome.isLimit = false from htr]
      exact hmore
    | next m =>
      have hrest : (m.step a limit).follow a limit n = some (outcome, s) := h
      rcases m.step_limit a limit with hstep | ⟨l, -, hstep⟩
      · rw [hstep] at hrest
        obtain ⟨hgoes, hcount⟩ := Machine.step_counts (a := a) hmore
        exact ih hrest hgoes hcount
      · rw [hstep] at hrest
        have hend : some (Outcome.failed (.stepLimit l), m.session.countStep)
            = some (outcome, s) := by
          cases n <;> exact hrest
        cases hend
        exact congrArg (· + 1) hmore

end Transition

/-! ## The theorem -/

namespace Assembly

/-- **A run halts** within some horizon, in an outcome and a session. -/
def Halts (a : Assembly) (limit : Option Nat) (s : Session)
    (outcome : Outcome) (s' : Session) : Prop :=
  ∃ horizon, a.run limit horizon s = some (outcome, s')

/-- **The moment before a step**: a run without a limit has counted so many
steps, and its next transition counts one more. -/
structure IsBeforeStep (a : Assembly) (s : Session) (steps : Nat)
    (m : Machine) : Prop where
  /-- The run comes to the state. -/
  reached : ∃ n, Transition.after a n (a.start s) = .next m
  /-- There is an instruction to be executed. -/
  rest : m.frame.rest ≠ []
  /-- So many steps have been counted. -/
  steps : m.session.steps = steps

/-- **A limit cuts a run off**: the run without a limit comes to the moment
before the step over the limit, and the run with the limit ends there. What it
leaves is the session of that moment with one step more. -/
structure IsCutOff (a : Assembly) (s : Session) (limit : Nat) : Prop where
  /-- There is such a moment. -/
  moment : ∃ m, a.IsBeforeStep s limit m
  /-- The run with the limit ends there. -/
  ends : ∀ m, a.IsBeforeStep s limit m →
    a.Halts (some limit) s (.failed (.stepLimit limit)) m.session.countStep

/-- **Runs in turn** in one session, each with a limit of its own or none, and
how they end. -/
inductive RunsInTurn (a : Assembly) : Session → List Outcome → Session → Prop
  /-- No run. -/
  | nil {s : Session} : RunsInTurn a s [] s
  /-- One run, then the others. -/
  | cons {limit : Option Nat} {outcome : Outcome} {outcomes : List Outcome}
      {s s₁ s₂ : Session} (hfirst : a.Halts limit s outcome s₁)
      (hrest : RunsInTurn a s₁ outcomes s₂) :
    RunsInTurn a s (outcome :: outcomes) s₂

variable {a : Assembly} {s s' : Session} {limit : Nat}

theorem steps_start (a : Assembly) (s : Session) :
    (a.start s).session.steps = s.steps :=
  (Machine.enter_keepsCount a.main [] [] s).steps

/-- A run that counts more steps than the limit is cut off by it. -/
theorem isCutOff_of_lt {n : Nat} (h : s.steps ≤ limit)
    (hlater : limit < (Transition.after a n (a.start s)).session.steps) :
    a.IsCutOff s limit where
  moment := by
    rw [← a.steps_start s] at h
    obtain ⟨k, m, hk, hrest, hsteps⟩ := Transition.exists_moment h hlater
    exact ⟨m, ⟨k, hk⟩, hrest, hsteps⟩
  ends m hm := by
    obtain ⟨k, hk⟩ := hm.reached
    exact ⟨k + 1, Transition.follow_of_after hk hm.rest hm.steps⟩

/-- The steps of runs in turn are the instructions that were executed and, for
each run that ended at its limit, one. -/
theorem RunsInTurn.steps_eq {outcomes : List Outcome}
    (h : a.RunsInTurn s outcomes s') (more : Nat)
    (hmore : s.steps = s.executed + more) :
    s'.steps = s'.executed + more + outcomes.countP Outcome.isLimit := by
  induction h generalizing more with
  | nil => exact hmore
  | @cons limit outcome outcomes s s₁ s₂ hfirst _ ih =>
    obtain ⟨horizon, hrun⟩ := hfirst
    have hkeeps := Machine.enter_keepsCount a.main [] [] s
    have hstart : (Machine.enter a.main [] [] s).session.steps
        = (Machine.enter a.main [] [] s).session.executed + more := by
      rw [hkeeps.steps, hkeeps.executed, hmore]
    have hcount := Transition.follow_counts hrun hkeeps.isLimit hstart
    rw [ih _ (hcount.trans (Nat.add_assoc ..)), List.countP_cons]
    cases outcome.isLimit with
    | false => rfl
    | true =>
      show s₂.executed + (more + 1) + _ = s₂.executed + more + (_ + 1)
      omega

/-- **A step limit cuts runs off and does nothing else.** A run that ends
within the limit ends in the same way with it, and in the same session. A run
that counts more steps, or goes on for ever, is cut off just before the first
step over the limit is made. And whatever runs there were in a session, its
steps are the instructions that were executed, as they stand in the log, and
one for each run that ended at its limit. -/
theorem run_with_limit (a : Assembly) (input : List Int64) (limit : Nat) :
    (∀ outcome s, a.Halts none (.fresh input) outcome s → s.steps ≤ limit →
        a.Halts (some limit) (.fresh input) outcome s)
      ∧ (∀ outcome s, a.Halts none (.fresh input) outcome s →
        limit < s.steps → a.IsCutOff (.fresh input) limit)
      ∧ (a.NeverEnds (.fresh input) → a.IsCutOff (.fresh input) limit)
      ∧ ∀ outcomes s, a.RunsInTurn (.fresh input) outcomes s →
        s.steps = s.executed + outcomes.countP Outcome.isLimit := by
  refine ⟨?_, ?_, fun hnever => ?_, fun outcomes s hruns => ?_⟩
  · rintro outcome s ⟨horizon, hrun⟩ hle
    exact ⟨horizon, Transition.follow_of_le
      (Transition.follow_eq_some.mp hrun) hle⟩
  · rintro outcome s ⟨horizon, hrun⟩ hlt
    have hafter : Transition.after a horizon (a.start (.fresh input))
        = .halt outcome s := Transition.follow_eq_some.mp hrun
    refine isCutOff_of_lt (Nat.zero_le limit) (n := horizon) ?_
    rw [hafter]
    exact hlt
  · obtain ⟨n, hn⟩ := Transition.exists_le_steps (neverEnds_iff.mp hnever)
      (limit + 1)
    exact isCutOff_of_lt (Nat.zero_le limit) hn
  · exact hruns.steps_eq 0 rfl

/-- Code that calls a routine which does nothing. -/
def idle : Assembly where
  routines := [⟨⟨"rest", [], .unit, .nested 0⟩, [.nop, .leave]⟩]
  main := ⟨⟨"main", [], .unit, .nested 1⟩, [.call "rest", .leave]⟩
  symbols := .empty

/-- Four steps are executed, and a limit of two cuts the call off. -/
theorem idle_run_with_limit : idle.IsCutOff (.fresh []) 2
    ∧ ∃ s, s.steps = 4 ∧ idle.Halts (some 4) (.fresh []) .finished s := by
  have hrun : (idle.run none 5 (.fresh [])).map
      (fun r => (r.1, r.2.steps)) = some (.finished, 4) := by decide
  obtain ⟨⟨_, s⟩, hrun, heq⟩ := Option.map_eq_some_iff.mp hrun
  obtain ⟨rfl, hsteps⟩ := Prod.mk.inj heq
  have hhalts : idle.Halts none (.fresh []) .finished s := ⟨5, hrun⟩
  have hsteps : s.steps = 4 := hsteps
  refine ⟨(run_with_limit idle [] 2).2.1 _ s hhalts (by omega), s, hsteps, ?_⟩
  exact (run_with_limit idle [] 4).1 _ s hhalts (Nat.le_of_eq hsteps)

end Assembly

end Primer
