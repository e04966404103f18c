import Primer.Proofs.Machine.StepLimit
import Primer.Proofs.Machine.Surroundings

/-!
# What a run sees of a program

A machine looks three things up in an assembled program: the main routine, a
routine by its name, and the text that a name means. Of a routine it sees the
name, the parameters and the code. It does not see in which order the routines
stand, which scope a routine has, or what else there is in the symbol table.

So two programs with the same lookups have the same runs
(`Assembly.run_of_isSeenAs`). A frame keeps its routine, and so the frames of
two such runs are not equal. They are equal as far as they are seen
(`Frame.seen`), and a step may be made before or after the rest is left out.

Names come into a run by lookups only, and so the calls in its log are calls
of routines of the program (`Assembly.calls_of_run`).
-/

namespace Primer

/-! ## What is seen -/

/-- **What is seen of a routine**: all but its scope and the type of its
result. -/
def Routine.seen (r : Routine) : Routine :=
  ⟨⟨r.name, r.prototype.params, .unit, .global⟩, r.code⟩

/-- What is seen of a frame. -/
def Frame.seen (f : Frame) : Frame := { f with routine := f.routine.seen }

/-- What is seen of a state. -/
def Machine.seen (m : Machine) : Machine :=
  ⟨m.frame.seen, m.callers.map Frame.seen, m.session⟩

/-- What is seen of what comes after a state. -/
def Transition.seen : Transition → Transition
  | next m => next m.seen
  | halt outcome s => halt outcome s

/-- **A program is seen as another one**: the lookups have the same results,
as far as these are seen. -/
structure Assembly.IsSeenAs (a v : Assembly) : Prop where
  /-- The main routine. -/
  main : v.main = a.main.seen
  /-- The routines by their names. -/
  routine? : ∀ callee, v.routine? callee = (a.routine? callee).map Routine.seen
  /-- The texts. -/
  constant? : ∀ label, v.symbols.constant? label = a.symbols.constant? label

/-- What is seen of a program. -/
def Assembly.seen (a : Assembly) : Assembly :=
  ⟨a.routines.map Routine.seen, a.main.seen, a.symbols⟩

theorem Assembly.isSeenAs_seen (a : Assembly) : a.IsSeenAs a.seen :=
  ⟨rfl, fun _ => List.find?_map, fun _ => rfl⟩

/-! ## One instruction -/

theorem Frame.goTo_seen (f : Frame) (label : Label) :
    f.seen.goTo label = (f.goTo label).map Frame.seen := by
  unfold goTo
  show (orFail (f.routine.code.atLabel? label) _ >>= _) = _
  cases f.routine.code.atLabel? label <;> rfl

open Execution in
/-- **An instruction does not depend on what is not seen.** -/
theorem Instr.execute_seen {symbols symbols' : SymbolTable}
    (h : ∀ label, symbols'.constant? label = symbols.constant? label)
    (i : Instr) (f : Frame) (s : Session) :
    i.execute symbols' f.seen s
      = (i.execute symbols f s).map (Prod.map Frame.seen id) := by
  cases i with
  | label | enter | nop | leave | call | set => rfl
  | move | fetchResult | setResult | intToStr | printInt | printString =>
    exact bind_map fun _ => rfl
  | loadString dst constant =>
    simp only [execute, h constant]
    exact bind_map fun _ => rfl
  | jump target =>
    simp only [execute, Frame.goTo_seen]
    cases f.goTo target <;> rfl
  | branchZero test src ifTrue ifFalse =>
    refine bind_map fun n => ?_
    show f.seen.goTo _ >>= _ = _
    rw [Frame.goTo_seen]
    cases f.goTo (if test.passes n then ifTrue else ifFalse) <;> rfl
  | strToInt => exact bind_map fun _ => bind_map fun _ => rfl
  | arith =>
    exact bind_map fun _ => bind_map fun _ => bind_map fun _ => rfl
  | branchCompare op lhs rhs ifTrue ifFalse =>
    refine bind_map fun _ => bind_map fun _ => bind_map fun holds => ?_
    show f.seen.goTo _ >>= _ = _
    rw [Frame.goTo_seen]
    cases f.goTo (if holds then ifTrue else ifFalse) <;> rfl
  | setArgument index =>
    refine bind_map fun _ => ?_
    by_cases hroom : index.toNat < argumentRoom
    · rw [if_pos hroom, if_pos hroom]
      rfl
    · rw [if_neg hroom, if_neg hroom]
      rfl
  | readInt =>
    obtain ⟨input, output, steps, log⟩ := s
    cases input <;> rfl

/-! ## Steps -/

namespace Machine

variable {a v : Assembly} {limit : Option Nat}

theorem enter_seen (r : Routine) (args : List Value) (callers : List Frame)
    (s : Session) :
    Machine.enter r.seen args (callers.map Frame.seen) s
      = (Machine.enter r args callers s).seen := by
  show (if args.length < r.prototype.params.length then _ else _)
    = Transition.seen
      (if args.length < r.prototype.params.length then _ else _)
  split <;> rfl

theorem leave_seen (f : Frame) (callers : List Frame) (s : Session) :
    leave f.seen (callers.map Frame.seen) s = (leave f callers s).seen := by
  cases callers <;> rfl

/-- A routine is called alike, as far as it is seen. -/
theorem call_seen (h : a.IsSeenAs v) (callee : Ident) (f : Frame)
    (callers : List Frame) (s : Session) :
    Machine.call v callee f.seen (callers.map Frame.seen) s
      = (Machine.call a callee f callers s).seen := by
  unfold Machine.call
  rw [h.routine?]
  cases a.routine? callee with
  | none => rfl
  | some r =>
    rw [show collect f.seen.arguments 0 f.seen.argumentCount
      = collect f.arguments 0 f.argumentCount from rfl]
    cases collect f.arguments 0 f.argumentCount with
    | error index => rfl
    | ok args =>
      exact enter_seen r args ({ f with arguments := .empty } :: callers) s

/-- **An instruction is performed alike**, as far as it is seen. -/
theorem perform_seen (h : a.IsSeenAs v) (i : Instr) (f : Frame)
    (callers : List Frame) (s : Session) :
    perform v i f.seen (callers.map Frame.seen) s
      = (perform a i f callers s).seen := by
  by_cases hleave : i = .leave
  · subst hleave
    exact leave_seen f callers s
  by_cases hcall : ∃ callee, i = .call callee
  · obtain ⟨callee, rfl⟩ := hcall
    exact call_seen h callee f callers s
  · have hcall := not_exists.mp hcall
    rw [perform.eq_3 _ _ _ _ _ hleave hcall,
      perform.eq_3 _ _ _ _ _ hleave hcall, Instr.execute_seen h.constant?]
    cases i.execute a.symbols f s <;> rfl

/-- **A step is made alike**, as far as it is seen. -/
theorem step_seen (h : a.IsSeenAs v) (m : Machine) :
    m.seen.step v limit = (m.step a limit).seen := by
  unfold step
  rw [show m.seen.frame.rest = m.frame.rest from rfl]
  cases m.frame.rest with
  | nil => exact leave_seen m.frame m.callers m.session
  | cons i rest =>
    rw [show m.seen.session = m.session from rfl]
    dsimp only
    cases exceeded? limit m.session.countStep.steps with
    | some limit => rfl
    | none => exact perform_seen h i { m.frame with rest := rest } m.callers _

end Machine

/-! ## Calls -/

/-- **The calls in a log** are calls of routines with such names. -/
def Session.Calls (s : Session) (names : Ident → Prop) : Prop :=
  ∀ routine args, .call routine args ∈ s.log → names routine

namespace Machine

variable {a : Assembly} {names : Ident → Prop}

/-- A routine with such a name is entered in the log. -/
theorem calls_enter {r : Routine} (hr : names r.name) (args : List Value)
    (callers : List Frame) {s : Session} (hs : s.Calls names) :
    (Machine.enter r args callers s).session.Calls names := by
  have hlog : (s.record (.call r.name args)).Calls names := by
    intro routine args' hmem
    rcases List.mem_cons.mp hmem with heq | hmem
    · cases heq
      exact hr
    · exact hs routine args' hmem
  unfold Machine.enter
  simp only
  split <;> exact hlog

/-- **An instruction calls only what can be called.** -/
theorem calls_perform (h : ∀ r ∈ a.routines, names r.name) (i : Instr)
    (f : Frame) (callers : List Frame) {s : Session} (hs : s.Calls names) :
    (perform a i f callers s).session.Calls names := by
  unfold perform
  split
  · rw [(leave_session f callers s).1]
    exact hs
  · unfold Machine.call
    split
    · exact hs
    · next r hroutine =>
      split
      · exact hs
      · exact calls_enter (h r (List.mem_of_find?_eq_some hroutine)) _ _ hs
  · have hspares := Instr.spares_execute i a.symbols f s
    split
    · next hexecute =>
      rw [hexecute] at hspares
      unfold Session.Calls Transition.session
      rw [hspares.2]
      exact hs
    · exact hs

/-- A step calls only what can be called. -/
theorem calls_step (h : ∀ r ∈ a.routines, names r.name) (limit : Option Nat)
    {m : Machine} (hm : m.session.Calls names) :
    (m.step a limit).session.Calls names := by
  unfold step
  split
  · rw [(leave_session ..).1]
    exact hm
  · next i rest _ =>
    simp only
    split
    · exact hm
    · refine calls_perform h i _ _ fun routine args hmem => ?_
      exact hm routine args ((List.mem_cons.mp hmem).resolve_left nofun)

end Machine

/-! ## Runs -/

/-- A run calls only what can be called. -/
theorem Transition.calls_follow {a : Assembly} {names : Ident → Prop}
    (h : ∀ r ∈ a.routines, names r.name) {limit : Option Nat} {horizon : Nat}
    {tr : Transition} (htr : tr.session.Calls names) {outcome : Outcome}
    {s : Session} (hfollow : tr.follow a limit horizon = some (outcome, s)) :
    s.Calls names := by
  induction horizon generalizing tr with
  | zero =>
    cases tr with
    | halt => cases hfollow; exact htr
    | next => cases hfollow
  | succ horizon ih =>
    cases tr with
    | halt => cases hfollow; exact htr
    | next m => exact ih (Machine.calls_step h limit htr) hfollow

/-- **The calls in the log of a run** are calls of routines of the program. -/
theorem Assembly.calls_of_run {a : Assembly} {names : Ident → Prop}
    (hmain : names a.main.name) (h : ∀ r ∈ a.routines, names r.name)
    {limit : Option Nat} {horizon : Nat} {input : List Int64}
    {outcome : Outcome} {s : Session}
    (hrun : a.run limit horizon (.fresh input) = some (outcome, s)) :
    s.Calls names :=
  Transition.calls_follow h
    (Machine.calls_enter hmain [] [] fun _ _ hmem =>
      absurd hmem List.not_mem_nil) hrun

/-- **A run goes alike** if the program is seen as another one. -/
theorem Transition.follow_seen {a v : Assembly} (h : a.IsSeenAs v)
    {limit : Option Nat} (horizon : Nat) (tr : Transition) :
    tr.seen.follow v limit horizon = tr.follow a limit horizon := by
  induction horizon generalizing tr with
  | zero => cases tr <;> rfl
  | succ horizon ih =>
    cases tr with
    | halt => rfl
    | next m =>
      show (m.seen.step v limit).follow v limit horizon = _
      rw [Machine.step_seen h, ih]
      rfl

/-- **A run sees of a program only what it looks up.** -/
theorem Assembly.run_of_isSeenAs {a v : Assembly} (h : a.IsSeenAs v)
    (limit : Option Nat) (horizon : Nat) (s : Session) :
    v.run limit horizon s = a.run limit horizon s := by
  unfold run
  rw [h.main]
  exact (congrArg (·.follow v limit horizon)
    (Machine.enter_seen a.main [] [] s)).trans
      (Transition.follow_seen h horizon _)

end Primer
