import Mathlib.Logic.Relation
import Primer.Proofs.Machine.Runs
import Primer.Proofs.Machine.Surroundings

/-!
# What is seen of a run

A piece of code is a region of states: control is in the piece, or in a call
that was made there. A run that starts in a region leaves it in some state,
stops in it, or goes on in it for ever. On the way it shows an input, an
output and calls. Steps are not shown, since two ways to do the same thing may
take different numbers of them.

All that can be seen of a run in a region is a set of *sights*. Two runs with
the same sights show the same, leave with the same results and stop with the
same errors, and one goes on for ever if the other does.

What a call shows depends on its arguments only. `Machine.atop` puts a run on
top of other calls, and a step may be made before or after that
(`Machine.step_atop`), until the first of the calls ends. So the sights of a
run that has just started a call are those of the call by itself and then
those of the caller (`Machine.Follows.of_callee`).
-/

namespace Primer

open Relation

/-! ## What a session shows -/

/-- **What a session shows**: the rest of the input, the output and the calls,
but no steps. -/
def Session.shown (s : Session) : Session :=
  { s with steps := 0, log := s.log.filter Event.isCall }

@[simp] theorem Session.shown_shown (s : Session) :
    s.shown.shown = s.shown := by
  simp [shown]

@[simp] theorem Session.shown_countStep (s : Session) (routine : Ident)
    (i : Instr) :
    (s.countStep.record (.step routine i)).shown = s.shown := rfl

@[simp] theorem Session.shown_call (s : Session) (routine : Ident)
    (args : List Value) : (s.record (.call routine args)).shown
      = s.shown.record (.call routine args) := rfl

/-! ## Regions -/

namespace Machine

variable (a : Assembly) (R : Machine → Prop)

/-- A step from a state in the region. -/
def Moves (m m' : Machine) : Prop := R m ∧ m.step a none = .next m'

/-- **The run leads from one state to another**, the states before the other
being in the region. -/
def Leads : Machine → Machine → Prop := ReflTransGen (Moves a R)

/-- **The run leaves the region** and is then in this state. -/
def Leaves (m m' : Machine) : Prop := m.Leads a R m' ∧ ¬ R m'

/-- **The run stops in the region**, and this is what is shown then. -/
def Stops (m : Machine) (outcome : Outcome) (s : Session) : Prop :=
  ∃ m', m.Leads a R m' ∧ R m' ∧ ∃ s', m'.step a none = .halt outcome s'
    ∧ s'.shown = s

/-- **The run shows this** at some time, up to the moment when it leaves the
region. -/
def Shows (m : Machine) (s : Session) : Prop :=
  ∃ m', m.Leads a R m' ∧ m'.session.shown = s

/-- **The run stays in the region for ever.** -/
def Stays (m : Machine) : Prop :=
  ∀ m', m.Leads a R m' → ∃ m'', m'.Moves a R m''

end Machine

/-- **Something that can be seen of a run** in a region, which has a result if
it leaves the region. -/
inductive Sight (β : Type) where
  /-- The run shows this at some time. -/
  | shows (s : Session)
  /-- It stops, and shows this. -/
  | stops (outcome : Outcome) (s : Session)
  /-- It leaves the region with a result, and shows this. -/
  | leaves (b : β) (s : Session)

namespace Machine

variable {β γ : Type}

/-- **A sight is had in a state.** In a state that has left the region, `good`
says what the result is. -/
def Offers (a : Assembly) (R : Machine → Prop) (good : β → Machine → Prop)
    (m : Machine) : Sight β → Prop
  | .shows s => m.session.shown = s
  | .stops outcome s =>
    R m ∧ ∃ s', m.step a none = .halt outcome s' ∧ s'.shown = s
  | .leaves b s => ¬ R m ∧ good b m ∧ m.session.shown = s

/-- **A sight is had in the run** from a state on. -/
def Gives (a : Assembly) (R : Machine → Prop) (good : β → Machine → Prop)
    (m : Machine) (o : Sight β) : Prop :=
  ∃ m', m.Leads a R m' ∧ m'.Offers a R good o

section Sights

variable {a : Assembly} {R : Machine → Prop} {good : β → Machine → Prop}
  {m m' m₁ : Machine} {o : Sight β}

theorem Leads.trans (h : m.Leads a R m₁) (h' : m₁.Leads a R m') :
    m.Leads a R m' := ReflTransGen.trans h h'

theorem Gives.of_leads (h : m.Leads a R m₁) (ho : m₁.Gives a R good o) :
    m.Gives a R good o := by
  obtain ⟨m', hleads, hoffers⟩ := ho
  exact ⟨m', h.trans hleads, hoffers⟩

/-- **After a step** the run leads where it led before. -/
theorem Moves.leads_iff (h : m.Moves a R m₁) :
    m.Leads a R m' ↔ m = m' ∨ m₁.Leads a R m' := by
  refine ReflTransGen.cases_head_iff.trans (or_congr_right ?_)
  constructor
  · rintro ⟨m₂, hmoves, hleads⟩
    obtain rfl : m₁ = m₂ := by
      simpa using h.2.symm.trans hmoves.2
    exact hleads
  · exact fun hleads => ⟨m₁, h, hleads⟩

theorem leads_iff_of_not_moves (h : ∀ m₁, ¬ m.Moves a R m₁) :
    m.Leads a R m' ↔ m = m' := by
  refine ReflTransGen.cases_head_iff.trans (or_iff_left ?_)
  rintro ⟨m₁, hmoves, -⟩
  exact h m₁ hmoves

/-- In a state from which a step is made there is no other sight than what the
state shows. -/
theorem Moves.offers_iff (h : m.Moves a R m₁) :
    m.Offers a R good o ↔ o = .shows m.session.shown := by
  cases o with
  | shows s =>
    rw [Sight.shows.injEq]
    exact eq_comm
  | stops outcome s =>
    refine iff_of_false ?_ nofun
    rintro ⟨-, s', hhalt, -⟩
    cases h.2.symm.trans hhalt
  | leaves b s => exact iff_of_false (fun hoffers => hoffers.1 h.1) nofun

/-- **After a step** the sights are what they were before, besides what the
state shows. -/
theorem Moves.gives_iff (h : m.Moves a R m₁) :
    m.Gives a R good o
      ↔ o = .shows m.session.shown ∨ m₁.Gives a R good o := by
  simp only [Gives, h.leads_iff, or_and_right, exists_or, exists_eq_left',
    h.offers_iff]

theorem gives_iff_of_not_moves (h : ∀ m₁, ¬ m.Moves a R m₁) :
    m.Gives a R good o ↔ m.Offers a R good o := by
  simp only [Gives, leads_iff_of_not_moves h, exists_eq_left']

/-- **A run stays in a region for ever** if it neither leaves it nor stops.
-/
theorem stays_iff : m.Stays a R
    ↔ (∀ m', ¬ m.Leaves a R m') ∧ ∀ outcome s, ¬ m.Stops a R outcome s := by
  constructor
  · refine fun h => ⟨?_, ?_⟩
    · rintro m' ⟨hleads, hout⟩
      obtain ⟨_, hmoves⟩ := h m' hleads
      exact hout hmoves.1
    · rintro outcome s ⟨m', hleads, -, s', hhalt, -⟩
      obtain ⟨_, hmoves⟩ := h m' hleads
      cases hmoves.2.symm.trans hhalt
  · rintro ⟨hleaves, hstops⟩ m' hleads
    have hin : R m' := Classical.byContradiction fun hout =>
      hleaves m' ⟨hleads, hout⟩
    cases hstep : m'.step a none with
    | next m'' => exact ⟨m'', hin, hstep⟩
    | halt outcome s =>
      exact absurd ⟨m', hleads, hin, s, hstep, rfl⟩ (hstops outcome s.shown)

end Sights

/-! ## Runs with known sights -/

/-- **The sights of a run are these**, and a run that leaves the region does
so with a result. -/
structure Follows (a : Assembly) (R : Machine → Prop)
    (good : β → Machine → Prop) (m : Machine) (sights : Sight β → Prop) :
    Prop where
  /-- The sights. -/
  gives : ∀ o, m.Gives a R good o ↔ sights o
  /-- The results. -/
  leaves : ∀ m', m.Leaves a R m' → ∃ b, good b m'

namespace Follows

variable {a : Assembly} {R : Machine → Prop} {good : β → Machine → Prop}
  {m m₁ : Machine} {sights sights₁ : Sight β → Prop}

/-- **A step** adds what is shown before it. -/
theorem of_moves (h : m.Moves a R m₁) (h₁ : m₁.Follows a R good sights₁)
    (hsights : ∀ o, sights o ↔ o = .shows m.session.shown ∨ sights₁ o) :
    m.Follows a R good sights where
  gives o := by rw [h.gives_iff, h₁.gives, hsights]
  leaves m' hleaves := by
    obtain ⟨hleads, hout⟩ := hleaves
    rcases h.leads_iff.mp hleads with rfl | hleads
    · exact absurd h.1 hout
    · exact h₁.leaves m' ⟨hleads, hout⟩

/-- **A stop.** -/
theorem of_halt {outcome : Outcome} {s : Session} (hin : R m)
    (hhalt : m.step a none = .halt outcome s)
    (hsights : ∀ o, sights o
      ↔ o = .shows m.session.shown ∨ o = .stops outcome s.shown) :
    m.Follows a R good sights := by
  have hlast : ∀ m₁, ¬ m.Moves a R m₁ := by
    rintro m₁ ⟨-, hstep⟩
    cases hhalt.symm.trans hstep
  refine ⟨fun o => ?_, fun m' hleaves => ?_⟩
  · rw [gives_iff_of_not_moves hlast, hsights]
    cases o with
    | shows s' => simp [Offers, eq_comm]
    | stops outcome' s' =>
      constructor
      · rintro ⟨-, s₁, hhalt', rfl⟩
        cases hhalt.symm.trans hhalt'
        exact Or.inr rfl
      · rintro (heq | heq) <;> cases heq
        exact ⟨hin, s, hhalt, rfl⟩
    | leaves b s' => simp [Offers, hin]
  · cases (leads_iff_of_not_moves hlast).mp hleaves.1
    exact absurd hin hleaves.2

/-- **A state that has left the region**, with the one result that it has. -/
theorem of_out {b : β} (hout : ¬ R m) (hb : good b m)
    (hunique : ∀ b', good b' m → b' = b)
    (hsights : ∀ o, sights o
      ↔ o = .shows m.session.shown ∨ o = .leaves b m.session.shown) :
    m.Follows a R good sights := by
  have hlast : ∀ m₁, ¬ m.Moves a R m₁ := fun m₁ hmoves => hout hmoves.1
  refine ⟨fun o => ?_, fun m' hleaves => ?_⟩
  · rw [gives_iff_of_not_moves hlast, hsights]
    cases o with
    | shows s' => simp [Offers, eq_comm]
    | stops outcome' s' => simp [Offers, hout]
    | leaves b' s' =>
      have hresult : good b' m ↔ b' = b :=
        ⟨hunique b', fun heq => heq ▸ hb⟩
      simp [Offers, hout, hresult, eq_comm]
  · cases (leads_iff_of_not_moves hlast).mp hleaves.1
    exact ⟨b, hb⟩

/-- **A run stays in the region for ever** if it neither leaves it with a
result nor stops. -/
theorem stays_iff (h : m.Follows a R good sights) : m.Stays a R
    ↔ (∀ b s, ¬ sights (.leaves b s))
      ∧ ∀ outcome s, ¬ sights (.stops outcome s) := by
  rw [Machine.stays_iff]
  refine and_congr ⟨fun hleaves b s hsight => ?_, fun hleaves m' hm' => ?_⟩
    (forall₂_congr fun outcome s => not_congr (h.gives (.stops outcome s)))
  · obtain ⟨m', hleads, hout, -, -⟩ := (h.gives _).mpr hsight
    exact hleaves m' ⟨hleads, hout⟩
  · obtain ⟨b, hb⟩ := h.leaves m' hm'
    exact hleaves b m'.session.shown
      ((h.gives _).mp ⟨m', hm'.1, hm'.2, hb, rfl⟩)

end Follows

end Machine

/-! ## Runs on top of other calls -/

/-- **A state as it shows itself on top of other calls.** -/
def Machine.atop (base : List Frame) (m : Machine) : Machine :=
  ⟨m.frame, m.callers ++ base, m.session.shown⟩

/-- What comes after a state, as it shows itself on top of other calls. -/
def Transition.atop (base : List Frame) : Transition → Transition
  | next m => next (m.atop base)
  | halt outcome s => halt outcome s.shown

open Execution in
/-- **An instruction does not see the steps** that a session has counted. -/
theorem Instr.execute_shown (i : Instr) (symbols : SymbolTable) (f : Frame)
    (s : Session) : i.execute symbols f s.shown
      = (i.execute symbols f s).map (Prod.map id Session.shown) := by
  cases i with
  | label | enter | nop | leave | call | set => rfl
  | move | jump | fetchResult | setResult | loadString | intToStr | printInt
  | printString => exact bind_map fun _ => rfl
  | branchZero | strToInt => exact bind_map fun _ => bind_map fun _ => rfl
  | arith =>
    exact bind_map fun _ => bind_map fun _ => bind_map fun _ => rfl
  | branchCompare =>
    exact bind_map fun _ => bind_map fun _ => bind_map fun _ =>
      bind_map fun _ => rfl
  | setArgument index =>
    refine bind_map fun _ => ?_
    by_cases hroom : index.toNat < argumentRoom
    · rw [if_pos hroom, if_pos hroom]
      rfl
    · rw [if_neg hroom, if_neg hroom]
      rfl
  | readInt =>
    obtain ⟨input, output, steps, log⟩ := s
    cases input <;> rfl

namespace Machine

variable {a : Assembly} {base : List Frame}

/-- **The call is about to end**, and no other waits for it. -/
def AtEnd (m : Machine) : Prop :=
  m.callers = [] ∧ (m.frame.rest = [] ∨ ∃ k, m.frame.rest = .leave :: k)

theorem enter_atop (r : Routine) (args : List Value) (callers : List Frame)
    {s s' : Session} (h : s'.shown = s.shown) :
    (Machine.enter r args (callers ++ base) s').atop []
      = (Machine.enter r args callers s).atop base := by
  unfold Machine.enter
  simp only
  split <;> simp [Transition.atop, atop, h]

/-- A call ends alike on top of other calls, if it is not the first one. -/
theorem leave_atop (f : Frame) {callers : List Frame}
    (hcallers : callers ≠ [] ∨ base = []) {s s' : Session}
    (h : s'.shown = s.shown) : (leave f (callers ++ base) s').atop []
      = (leave f callers s).atop base := by
  cases callers with
  | nil =>
    obtain rfl := hcallers.resolve_left (fun hne => hne rfl)
    exact congrArg (Transition.halt .finished) h
  | cons caller callers => simp [leave, Transition.atop, atop, h]

/-- A routine is called alike on top of other calls. -/
theorem call_atop (callee : Ident) (f : Frame) (callers : List Frame)
    {s s' : Session} (h : s'.shown = s.shown) :
    (Machine.call a callee f (callers ++ base) s').atop []
      = (Machine.call a callee f callers s).atop base := by
  unfold Machine.call
  cases a.routine? callee with
  | none => exact congrArg (Transition.halt _) h
  | some r =>
    simp only
    cases collect f.arguments 0 f.argumentCount with
    | error index => exact congrArg (Transition.halt _) h
    | ok args =>
      exact enter_atop r args ({ f with arguments := .empty } :: callers) h

/-- **An instruction is performed alike** on top of other calls, unless the
first of the calls ends there. -/
theorem perform_atop {i : Instr} (f : Frame) {callers : List Frame}
    (hcallers : i = .leave → callers ≠ [] ∨ base = []) {s s' : Session}
    (h : s'.shown = s.shown) : (perform a i f (callers ++ base) s').atop []
      = (perform a i f callers s).atop base := by
  by_cases hleave : i = .leave
  · subst hleave
    exact leave_atop f (hcallers rfl) h
  by_cases hcall : ∃ callee, i = .call callee
  · obtain ⟨callee, rfl⟩ := hcall
    exact call_atop callee f callers h
  · have hcall := not_exists.mp hcall
    have hexecute : (i.execute a.symbols f s').map (Prod.map id Session.shown)
        = (i.execute a.symbols f s).map (Prod.map id Session.shown) := by
      rw [← Instr.execute_shown, ← Instr.execute_shown, h]
    rw [perform.eq_3 _ _ _ _ _ hleave hcall,
      perform.eq_3 _ _ _ _ _ hleave hcall]
    cases hx : i.execute a.symbols f s with
    | error outcome =>
      rw [hx] at hexecute
      cases hx' : i.execute a.symbols f s' with
      | error outcome' =>
        rw [hx'] at hexecute
        cases hexecute
        exact congrArg (Transition.halt _) h
      | ok r => rw [hx'] at hexecute; cases hexecute
    | ok r =>
      rw [hx] at hexecute
      cases hx' : i.execute a.symbols f s' with
      | error outcome' => rw [hx'] at hexecute; cases hexecute
      | ok r' =>
        rw [hx'] at hexecute
        obtain ⟨hframe, hshown⟩ := Prod.mk.inj (Except.ok.inj hexecute)
        have hframe : r'.1 = r.1 := hframe
        have hshown : r'.2.shown = r.2.shown := hshown
        simp [Transition.atop, atop, hframe, hshown]

/-- **A step is made alike** on top of other calls, until the first of the
calls ends. -/
theorem step_atop {m m' : Machine} (h : m'.atop [] = m.atop base)
    (hends : ¬ m.AtEnd ∨ base = []) :
    (m'.step a none).atop [] = (m.step a none).atop base := by
  obtain ⟨f, callers, s⟩ := m
  obtain ⟨f', callers', s'⟩ := m'
  obtain ⟨rfl, hcallers, hs⟩ : f' = f ∧ callers' = callers ++ base
      ∧ s'.shown = s.shown := by simpa [atop] using h
  subst hcallers
  have hbase : (f'.rest = [] ∨ ∃ k, f'.rest = .leave :: k) →
      callers ≠ [] ∨ base = [] := fun hrest =>
    hends.imp_left fun hnot hnil => hnot ⟨hnil, hrest⟩
  unfold step
  cases hrest : f'.rest with
  | nil => exact leave_atop f' (hbase (Or.inl hrest)) hs
  | cons i rest =>
    refine perform_atop { f' with rest := rest } (fun hi => ?_) hs
    exact hbase (Or.inr ⟨rest, hi ▸ hrest⟩)

/-- **The first call ends** on top of the others, and hands its result back.
-/
theorem step_atop_end {caller : Frame} {m m' : Machine}
    (h : m'.atop [] = m.atop (caller :: base)) (hend : m.AtEnd) :
    ∃ s, m'.step a none
        = .next ⟨{ caller with received := m.frame.result }, base, s⟩
      ∧ s.shown = m.session.shown := by
  obtain ⟨f, callers, s⟩ := m
  obtain ⟨f', callers', s'⟩ := m'
  obtain ⟨rfl, hrest⟩ := hend
  obtain ⟨rfl, rfl, hs⟩ : f' = f ∧ callers' = caller :: base
      ∧ s'.shown = s.shown := by simpa [atop] using h
  have hrest : f'.rest = [] ∨ ∃ k, f'.rest = .leave :: k := hrest
  rcases hrest with hrest | ⟨k, hrest⟩
  · refine ⟨s', ?_, hs⟩
    rw [step, show (mk f' (caller :: base) s').frame.rest = _ from hrest]
    rfl
  · refine ⟨s'.countStep.record (.step f'.name .leave), ?_, hs⟩
    rw [step_none (show (mk f' (caller :: base) s').frame.rest = _ from hrest)]
    rfl

/-! ## Calls that are made in a piece -/

/-- **Control is in a piece of code**, or in a call that was made there. -/
def Within (inside : Code → Prop) (base : List Frame) (m : Machine) : Prop :=
  (m.callers = base ∧ inside m.frame.rest)
    ∨ base.length < m.callers.length

/-- **Control is in a call**, which has not come to its end. -/
def InCall (m : Machine) : Prop := ¬ m.AtEnd

variable {inside : Code → Prop} {caller : Frame} {m m₁ m' m₁' : Machine}

/-- On top of the call of a piece control is in the piece. -/
theorem within_of_atop (h : m'.atop [] = m.atop (caller :: base)) :
    m'.Within inside base := by
  have hcallers : m'.callers = m.callers ++ caller :: base := by
    simpa [atop] using congrArg Machine.callers h
  refine Or.inr ?_
  rw [hcallers, List.length_append, List.length_cons]
  omega

theorem shown_of_atop (h : m'.atop [] = m.atop base) :
    m'.session.shown = m.session.shown := congrArg Machine.session h

/-- **A step of a call** is one on top of other calls. -/
theorem Moves.atop (h : m'.atop [] = m.atop (caller :: base))
    (hmoves : m.Moves a InCall m₁) :
    ∃ m₁', m'.Moves a (Within inside base) m₁'
      ∧ m₁'.atop [] = m₁.atop (caller :: base) := by
  have hstep := step_atop (a := a) h (Or.inl hmoves.1)
  rw [hmoves.2] at hstep
  cases hstep' : m'.step a none with
  | next m₁' =>
    rw [hstep'] at hstep
    exact ⟨m₁', ⟨within_of_atop h, hstep'⟩, Transition.next.inj hstep⟩
  | halt outcome s => rw [hstep'] at hstep; cases hstep

/-- **A run of a call** is one on top of other calls. -/
theorem Leads.atop (h : m'.atop [] = m.atop (caller :: base))
    (hleads : m.Leads a InCall m₁) :
    ∃ m₁', m'.Leads a (Within inside base) m₁'
      ∧ m₁'.atop [] = m₁.atop (caller :: base) := by
  induction hleads with
  | refl => exact ⟨m', .refl, h⟩
  | tail _ hmoves ih =>
    obtain ⟨m₂', hleads, hatop⟩ := ih
    obtain ⟨m₃', hmoves', hatop'⟩ := hmoves.atop hatop
    exact ⟨m₃', hleads.tail hmoves', hatop'⟩

/-- **A run on top of other calls** is in the call by itself, or it has come
back from it. -/
theorem Leads.of_atop (h : m'.atop [] = m.atop (caller :: base))
    (hleads : m'.Leads a (Within inside base) m₁') :
    (∃ m₁, m.Leads a InCall m₁ ∧ m₁'.atop [] = m₁.atop (caller :: base))
    ∨ ∃ m₁ s, m.Leads a InCall m₁ ∧ m₁.AtEnd
      ∧ s.shown = m₁.session.shown
      ∧ Leads a (Within inside base)
        ⟨{ caller with received := m₁.frame.result }, base, s⟩ m₁' := by
  induction hleads with
  | refl => exact Or.inl ⟨m, .refl, h⟩
  | @tail m₂' m₃' _ hmoves ih =>
    rcases ih with ⟨m₂, hleads, hatop⟩ | ⟨m₂, s, hleads, hend, hs, hback⟩
    · by_cases hend : m₂.AtEnd
      -- the call ends with this step
      · obtain ⟨s, hstep, hs⟩ := step_atop_end (a := a) hatop hend
        cases hmoves.2.symm.trans hstep
        exact Or.inr ⟨m₂, s, hleads, hend, hs, .refl⟩
      · have hstep := step_atop (a := a) hatop (Or.inl hend)
        rw [hmoves.2] at hstep
        cases hstep₂ : m₂.step a none with
        | next m₃ =>
          rw [hstep₂] at hstep
          exact Or.inl ⟨m₃, hleads.tail ⟨hend, hstep₂⟩,
            Transition.next.inj hstep⟩
        | halt outcome s => rw [hstep₂] at hstep; cases hstep
    · exact Or.inr ⟨m₂, s, hleads, hend, hs, hback.tail hmoves⟩

/-- On top of other calls a call that has not ended offers what it offers by
itself, and has no result yet. -/
theorem offers_atop {γ : Type} {good : β → Machine → Prop}
    (answer : γ → Machine → Prop)
    (h : m'.atop [] = m.atop (caller :: base)) (hin : m.InCall)
    {o : Sight β} (ho : m'.Offers a (Within inside base) good o) :
    (o = .shows m.session.shown)
      ∨ ∃ outcome s, o = .stops outcome s
        ∧ m.Offers a InCall answer (.stops outcome s) := by
  cases o with
  | shows s =>
    obtain rfl : m'.session.shown = s := ho
    exact Or.inl (congrArg _ (shown_of_atop h))
  | stops outcome s =>
    obtain ⟨-, s', hhalt, rfl⟩ := ho
    have hstep := step_atop (a := a) h (Or.inl hin)
    rw [hhalt] at hstep
    cases hstep' : m.step a none with
    | next m₁ => rw [hstep'] at hstep; cases hstep
    | halt outcome' s =>
      rw [hstep'] at hstep
      obtain ⟨rfl, hs⟩ := Transition.halt.inj hstep
      exact Or.inr ⟨_, _, rfl, hin, s, hstep', hs.symm⟩
  | leaves b s => exact absurd (within_of_atop h) ho.1

end Machine

/-- **The sights of a run after another one**: those of the other, and if it
has a result, those of the run that goes on with it. -/
def Sight.andThen {β γ : Type} (sights : γ → Session → Sight β → Prop) :
    Sight γ → Sight β → Prop
  | shows s, o => o = .shows s
  | stops outcome s, o => o = .stops outcome s
  | leaves v s, o => sights v s o

namespace Machine

variable {β γ : Type} {a : Assembly} {inside : Code → Prop}
  {base : List Frame} {caller : Frame} {good : β → Machine → Prop}
  {answer : γ → Machine → Prop} {m m' : Machine} {o : Sight β}

/-- What is seen of a run that has started a call is seen of the call by
itself, or after it has come back. -/
theorem Gives.of_atop (h : m'.atop [] = m.atop (caller :: base))
    (hends : ∀ m₁, m.Leads a InCall m₁ → m₁.AtEnd → ∃ v, answer v m₁)
    (ho : m'.Gives a (Within inside base) good o) :
    (∃ s, m.Gives a InCall answer (.shows s) ∧ o = .shows s)
    ∨ (∃ outcome s, m.Gives a InCall answer (.stops outcome s)
      ∧ o = .stops outcome s)
    ∨ ∃ v m₁ s, m.Gives a InCall answer (.leaves v s.shown) ∧ answer v m₁
      ∧ s.shown = m₁.session.shown
      ∧ Gives a (Within inside base) good
        ⟨{ caller with received := m₁.frame.result }, base, s⟩ o := by
  obtain ⟨m₁', hleads, hoffers⟩ := ho
  rcases hleads.of_atop h with
    ⟨m₁, hleads₁, hatop⟩ | ⟨m₁, s, hleads₁, hend, hs, hrest⟩
  · by_cases hend : m₁.AtEnd
    -- in the last state of the call there is nothing but what it shows
    · obtain ⟨s, hstep, -⟩ := step_atop_end (a := a) hatop hend
      have hmoves : m₁'.Moves a (Within inside base) _ :=
        ⟨within_of_atop hatop, hstep⟩
      rw [hmoves.offers_iff.mp hoffers, shown_of_atop hatop]
      exact Or.inl ⟨_, ⟨m₁, hleads₁, rfl⟩, rfl⟩
    · rcases offers_atop answer hatop hend hoffers with
        rfl | ⟨outcome, s, rfl, hstops⟩
      · exact Or.inl ⟨_, ⟨m₁, hleads₁, rfl⟩, rfl⟩
      · exact Or.inr (Or.inl ⟨outcome, s, ⟨m₁, hleads₁, hstops⟩, rfl⟩)
  · obtain ⟨v, hv⟩ := hends m₁ hleads₁ hend
    exact Or.inr (Or.inr ⟨v, m₁, s,
      ⟨m₁, hleads₁, fun hin => hin hend, hv, hs.symm⟩, hv, hs,
      m₁', hrest, hoffers⟩)

theorem Gives.atop_shows (h : m'.atop [] = m.atop (caller :: base))
    {s : Session} (ho : m.Gives a InCall answer (.shows s)) :
    m'.Gives a (Within inside base) good (.shows s) := by
  obtain ⟨m₁, hleads₁, hs⟩ := ho
  obtain ⟨m₁', hleads, hatop⟩ := hleads₁.atop h
  exact ⟨m₁', hleads, (shown_of_atop hatop).trans hs⟩

/-- Where a call stops by itself, a run that has started it stops. -/
theorem Gives.atop_stops (h : m'.atop [] = m.atop (caller :: base))
    {outcome : Outcome} {s : Session}
    (ho : m.Gives a InCall answer (.stops outcome s)) :
    m'.Gives a (Within inside base) good (.stops outcome s) := by
  obtain ⟨m₁, hleads₁, hin, s₁, hhalt, rfl⟩ := ho
  obtain ⟨m₁', hleads, hatop⟩ := hleads₁.atop h
  have hstep := step_atop (a := a) hatop (Or.inl hin)
  rw [hhalt] at hstep
  cases hstep' : m₁'.step a none with
  | next m₂ => rw [hstep'] at hstep; cases hstep
  | halt outcome' s' =>
    rw [hstep'] at hstep
    obtain ⟨rfl, hs⟩ := Transition.halt.inj hstep
    exact ⟨m₁', hleads, within_of_atop hatop, s', hstep', hs⟩

/-- Where a call has come to its end, a run that has started it goes on. -/
theorem Gives.atop_leaves (h : m'.atop [] = m.atop (caller :: base))
    {v : γ} {s : Session} (ho : m.Gives a InCall answer (.leaves v s)) :
    ∃ m₁ s', answer v m₁ ∧ s'.shown = m₁.session.shown
      ∧ m₁.session.shown = s
      ∧ m'.Leads a (Within inside base)
        ⟨{ caller with received := m₁.frame.result }, base, s'⟩ := by
  obtain ⟨m₁, hleads₁, hend, hv, hs⟩ := ho
  obtain ⟨m₁', hleads, hatop⟩ := hleads₁.atop h
  obtain ⟨s', hstep, hs'⟩ := step_atop_end (a := a) hatop
    (Classical.not_not.mp hend)
  have hmoves : m₁'.Moves a (Within inside base) _ :=
    ⟨within_of_atop hatop, hstep⟩
  exact ⟨m₁, s', hv, hs', hs, hleads.tail hmoves⟩

/-- **The sights of a run that has started a call** are those of the call by
itself, and then those of the caller. -/
theorem Follows.of_callee {sights : γ → Session → Sight β → Prop}
    (h : m'.atop [] = m.atop (caller :: base))
    (hends : ∀ m₁, m.Leads a InCall m₁ → m₁.AtEnd → ∃ v, answer v m₁)
    (hback : ∀ v m₁ s, answer v m₁ → s.shown = m₁.session.shown →
      Follows a (Within inside base) good
        ⟨{ caller with received := m₁.frame.result }, base, s⟩
        (sights v s.shown)) :
    m'.Follows a (Within inside base) good
      fun o => ∃ o', m.Gives a InCall answer o' ∧ o'.andThen sights o where
  gives o := by
    constructor
    · intro ho
      rcases ho.of_atop h hends with ⟨s, hshows, rfl⟩
        | ⟨outcome, s, hstops, rfl⟩ | ⟨v, m₁, s, hleaves, hv, hs, hrest⟩
      · exact ⟨_, hshows, rfl⟩
      · exact ⟨_, hstops, rfl⟩
      · exact ⟨_, hleaves, ((hback v m₁ s hv hs).gives o).mp hrest⟩
    · rintro ⟨o', ho', ho⟩
      cases o' with
      | shows s =>
        obtain rfl : o = .shows s := ho
        exact ho'.atop_shows h
      | stops outcome s =>
        obtain rfl : o = .stops outcome s := ho
        exact ho'.atop_stops h
      | leaves v s =>
        obtain ⟨m₁, s', hv, hs', rfl, hleads⟩ := ho'.atop_leaves h
        exact Gives.of_leads hleads
          (((hback v m₁ s' hv hs').gives o).mpr (hs' ▸ ho))
  leaves m₁' hleaves := by
    obtain ⟨hleads, hout⟩ := hleaves
    rcases hleads.of_atop h with
      ⟨m₁, -, hatop⟩ | ⟨m₁, s, hleads₁, hend, hs, hrest⟩
    · exact absurd (within_of_atop hatop) hout
    · obtain ⟨v, hv⟩ := hends m₁ hleads₁ hend
      exact (hback v m₁ s hv hs).leaves m₁' ⟨hrest, hout⟩

end Machine

end Primer
