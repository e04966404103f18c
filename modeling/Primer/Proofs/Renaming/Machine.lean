import Primer.Machine.Run
import Primer.Proofs.Renaming.Emission

/-!
# Running a renamed program

A machine that runs a renamed program is at every step in the renamed state.
It looks names up in the places of a frame, in the labels of a routine, among
the routines and among the texts, and it finds there what it found before, as
long as different names stay different. It does nothing else with a name than
to look it up, to log it and to report it in an error. So the renaming need
not be faithful; it may as well change the names that were made up.

One instruction is executed alike (`Instr.follows_execute`), so one step is
made alike (`Machine.step_rename`), and by induction a run goes alike
(`Assembly.run_rename`): it halts when the other one does, and as the other
one does, except for the names in the error and in the log.
-/

namespace Primer

variable {ρ : Renaming} {ν : Names}

/-! ## States -/

/-- The error with new names. -/
def RuntimeError.rename (ν : Names) : RuntimeError → RuntimeError
  | unknownRoutine name => unknownRoutine (ν.routine name)
  | unknownLabel label routine =>
    unknownLabel (ν.routine label) (ν.routine routine)
  | unknownString constant => unknownString (ν.routine constant)
  | unset slot routine => unset (ν.slot slot) (ν.routine routine)
  | confused slot expected found => confused (ν.slot slot) expected found
  | incomparable lhs rhs => incomparable lhs rhs
  | conversion text => conversion text
  | divisionByZero routine => divisionByZero (ν.routine routine)
  | inputExhausted => inputExhausted
  | missingArgument index routine =>
    missingArgument index (ν.routine routine)
  | noResult routine => noResult (ν.routine routine)
  | stepLimit limit => stepLimit limit

/-- **The end of a run with new names.** -/
def Outcome.rename (ν : Names) : Outcome → Outcome
  | finished => finished
  | failed error => failed (error.rename ν)
  | crashed => crashed

/-- The event with new names. -/
def Event.rename (ρ : Renaming) : Event → Event
  | call routine args => call (ρ.routine routine) args
  | step routine instr =>
    step (ρ.routine routine) (instr.rename (ρ.inBody routine))

/-- The session with new names, which are in its log only. -/
def Session.rename (ρ : Renaming) (s : Session) : Session :=
  { s with log := s.log.map (·.rename ρ) }

/-- The store with new names. -/
def Store.rename (slot : Slot → Slot) (s : Store Slot) : Store Slot :=
  ⟨s.entries.map fun entry => (slot entry.1, entry.2)⟩

/-- **The frame with new names**: those in the body of its routine. -/
def Frame.rename (ρ : Renaming) (f : Frame) : Frame where
  routine := f.routine.rename ρ
  rest := f.rest.rename (ρ.inBody f.name)
  slots := f.slots.rename (ρ.slot f.name)
  arguments := f.arguments
  received := f.received
  result := f.result

/-- **The state with new names.** -/
def Machine.rename (ρ : Renaming) (m : Machine) : Machine where
  frame := m.frame.rename ρ
  callers := m.callers.map (·.rename ρ)
  session := m.session.rename ρ

/-- **What comes after a state, with new names**, those of places being the
names in one body. -/
def Transition.rename (ρ : Renaming) (body : Ident) : Transition → Transition
  | next m => next (m.rename ρ)
  | halt outcome s => halt (outcome.rename (ρ.inBody body)) (s.rename ρ)

/-! ## Looking up -/

namespace Store

variable {slot : Slot → Slot} {s : Store Slot}

/-- **A renamed place has the same value.** -/
theorem get?_rename (hslot : slot.Injective) (key : Slot) :
    (s.rename slot).get? (slot key) = s.get? key := by
  show find _ (s.entries.map _) = find key s.entries
  induction s.entries with
  | nil => rfl
  | cons entry entries ih =>
    rw [List.map_cons, find, find, ih]
    exact if_congr hslot.eq_iff rfl rfl

/-- **A renamed place may be set** before or after renaming. -/
theorem set_rename (hslot : slot.Injective) (key : Slot) (value : Value) :
    (s.set key value).rename slot = (s.rename slot).set (slot key) value := by
  refine congrArg Store.mk ?_
  show (replace key value s.entries).map _
    = replace (slot key) value (s.entries.map _)
  induction s.entries with
  | nil => rfl
  | cons entry entries ih =>
    rw [List.map_cons, replace, replace, ← ih]
    by_cases hkey : entry.1 = key
    · rw [if_pos hkey, if_pos (congrArg slot hkey)]
      rfl
    · rw [if_neg hkey, if_neg (hslot.ne hkey)]
      rfl

end Store

theorem Instr.rename_eq_label (hν : ν.routine.Injective) {i : Instr}
    {name : Label} :
    i.rename ν = .label (ν.routine name) ↔ i = .label name := by
  cases i with
  | label name' => simp only [rename, Instr.label.injEq, hν.eq_iff]
  | _ => simp only [rename, reduceCtorEq]

/-- **A renamed label is found where the label was.** -/
theorem Code.atLabel?_rename (hν : ν.routine.Injective) (name : Label)
    (code : Code) :
    (code.rename ν).atLabel? (ν.routine name)
      = (code.atLabel? name).map (·.rename ν) := by
  induction code with
  | nil => rfl
  | cons i code ih =>
    rw [rename_cons, atLabel?, atLabel?, ih]
    cases atLabel? name code with
    | some found => rfl
    | none =>
      by_cases hi : i = .label name
      · rw [Option.map_none]
        simp only [if_pos hi, if_pos ((Instr.rename_eq_label hν).mpr hi)]
        rfl
      · rw [Option.map_none]
        simp only [if_neg hi, if_neg (mt (Instr.rename_eq_label hν).mp hi)]
        rfl

/-- **A renamed text has the same meaning.** -/
theorem SymbolTable.constant?_rename (hρ : ρ.routine.Injective)
    (t : SymbolTable) (constant : Label) :
    (t.rename ρ).constant? (ρ.routine constant) = t.constant? constant := by
  rw [constant?, find?_global_rename hρ, Option.bind_map]
  rfl

/-- **A renamed routine is found by its new name.** -/
theorem Assembly.routine?_rename (hρ : ρ.routine.Injective) (a : Assembly)
    (callee : Ident) :
    (a.rename ρ).routine? (ρ.routine callee)
      = (a.routine? callee).map (·.rename ρ) := by
  show (a.routines.map _).find? _ = _
  rw [List.find?_map]
  refine congrArg (Option.map _) (congrArg (List.find? · _) ?_)
  funext r
  exact hρ.beq_eq

/-! ## One instruction -/

/-- **An execution follows another under new names**: it ends with what `f`
makes of the result, or with the same outcome under new names. -/
def Execution.Follows {β γ : Type} (ν : Names) (f : β → γ) (x : Execution β)
    (y : Execution γ) : Prop :=
  y = match x with
    | .ok b => .ok (f b)
    | .error outcome => .error (outcome.rename ν)

namespace Execution.Follows

variable {β β' γ γ' : Type} {f : β → β'} {g : γ → γ'}

theorem ok {b : β} {b' : β'} (h : b' = f b) :
    Follows ν f (Except.ok b) (Except.ok b') := congrArg Except.ok h

/-- **One execution after the other.** -/
theorem bind {x : Execution β} {y : Execution β'} (h : Follows ν f x y)
    {k : β → Execution γ} {l : β' → Execution γ'}
    (hk : ∀ b, Follows ν g (k b) (l (f b))) :
    Follows ν g (x >>= k) (y >>= l) := by
  subst h
  cases x with
  | ok b => exact hk b
  | error outcome => rfl

theorem orFail {value? : Option β} {value?' : Option β'}
    (h : value?' = value?.map f) (error : RuntimeError) :
    Follows ν f (orFail value? error)
      (Primer.orFail value?' (error.rename ν)) := by
  subst h
  cases value? <;> rfl

theorem same (value? : Option β) (error : RuntimeError) :
    Follows ν id (Primer.orFail value? error)
      (Primer.orFail value? (error.rename ν)) :=
  orFail (congrFun Option.map_id value?).symm error

end Execution.Follows

namespace Frame

variable {f : Frame}

theorem set_rename (hρ : ρ.IsInjective) (slot : Slot) (value : Value) :
    (f.rename ρ).set (ρ.slot f.name slot) value
      = (f.set slot value).rename ρ := by
  refine congrArg (Frame.mk _ _ · _ _ _) ?_
  exact (Store.set_rename (hρ.slot f.name) slot value).symm

/-- **Reading a renamed place.** -/
theorem follows_get (hρ : ρ.IsInjective) (slot : Slot) :
    Execution.Follows (ρ.inBody f.name) id (f.get slot)
      ((f.rename ρ).get (ρ.slot f.name slot)) := by
  refine .orFail ?_ (.unset slot f.name)
  rw [Option.map_id]
  exact Store.get?_rename (hρ.slot f.name) slot

theorem follows_getInt (hρ : ρ.IsInjective) (slot : Slot) :
    Execution.Follows (ρ.inBody f.name) id (f.getInt slot)
      ((f.rename ρ).getInt (ρ.slot f.name slot)) :=
  (follows_get hρ slot).bind fun v => by
    cases v with
    | int n => exact .ok rfl
    | str s => exact rfl

theorem follows_getStr (hρ : ρ.IsInjective) (slot : Slot) :
    Execution.Follows (ρ.inBody f.name) id (f.getStr slot)
      ((f.rename ρ).getStr (ρ.slot f.name slot)) :=
  (follows_get hρ slot).bind fun v => by
    cases v with
    | int n => exact rfl
    | str s => exact .ok rfl

/-- **Going to a renamed label.** -/
theorem follows_goTo (hρ : ρ.IsInjective) (label : Label) :
    Execution.Follows (ρ.inBody f.name) (rename ρ) (f.goTo label)
      ((f.rename ρ).goTo (ρ.routine label)) := by
  have hfound := Code.atLabel?_rename (ν := ρ.inBody f.name)
    hρ.routine label f.routine.code
  exact (Execution.Follows.orFail hfound (.unknownLabel label f.name)).bind
    fun rest => .ok rfl

end Frame

/-- **A renamed instruction is executed alike** in the renamed frame. -/
theorem Instr.follows_execute (hρ : ρ.IsInjective) (i : Instr)
    (symbols : SymbolTable) (f : Frame) (s : Session) :
    Execution.Follows (ρ.inBody f.name)
      (Prod.map (Frame.rename ρ) (Session.rename ρ))
      (i.execute symbols f s)
      ((i.rename (ρ.inBody f.name)).execute (symbols.rename ρ) (f.rename ρ)
        (s.rename ρ)) := by
  have hset (slot : Slot) (v : Value) {s' : Session} :
      Execution.Follows (ρ.inBody f.name)
        (Prod.map (Frame.rename ρ) (Session.rename ρ))
        (Except.ok (f.set slot v, s'))
        (Except.ok ((f.rename ρ).set (ρ.slot f.name slot) v, s'.rename ρ)) :=
    .ok (congrArg (·, _) (Frame.set_rename hρ slot v))
  cases i with
  | label | enter | nop | leave | call => exact .ok rfl
  | set dst n => exact hset dst _
  | move dst src =>
    exact (Frame.follows_get hρ src).bind fun v => hset dst v
  | arith op dst lhs rhs =>
    refine (Frame.follows_getInt hρ lhs).bind fun a => ?_
    refine (Frame.follows_getInt hρ rhs).bind fun b => ?_
    exact (Execution.Follows.same _ (.divisionByZero f.name)).bind
      fun v => hset dst _
  | jump target =>
    exact (Frame.follows_goTo hρ target).bind fun f' => .ok rfl
  | branchCompare op lhs rhs ifTrue ifFalse =>
    refine (Frame.follows_get hρ lhs).bind fun a => ?_
    refine (Frame.follows_get hρ rhs).bind fun b => ?_
    refine (Execution.Follows.same _ (.incomparable a b)).bind
      fun holds => ?_
    have hgo := Frame.follows_goTo (f := f) hρ
      (if holds then ifTrue else ifFalse)
    rw [apply_ite ρ.routine] at hgo
    exact hgo.bind fun f' => .ok rfl
  | branchZero test src ifTrue ifFalse =>
    refine (Frame.follows_getInt hρ src).bind fun n => ?_
    have hgo := Frame.follows_goTo (f := f) hρ
      (if test.passes n then ifTrue else ifFalse)
    rw [apply_ite ρ.routine] at hgo
    exact hgo.bind fun f' => .ok rfl
  | setArgument index src =>
    refine (Frame.follows_get hρ src).bind fun v => ?_
    by_cases hroom : index.toNat < argumentRoom
    · rw [if_pos hroom, if_pos hroom]
      exact .ok rfl
    · rw [if_neg hroom, if_neg hroom]
      exact rfl
  | fetchResult dst =>
    refine (Execution.Follows.same f.received (.noResult f.name)).bind
      fun v => ?_
    exact .ok (congrArg (·, _) (Frame.set_rename
      (f := { f with received := none }) hρ dst v))
  | setResult src =>
    exact (Frame.follows_get hρ src).bind fun v => .ok rfl
  | loadString dst constant =>
    have htext := SymbolTable.constant?_rename hρ.routine symbols
      constant
    rw [← Option.map_id_apply (x := symbols.constant? constant)] at htext
    exact (Execution.Follows.orFail htext (.unknownString constant)).bind
      fun text => hset dst _
  | printInt src =>
    exact (Frame.follows_getInt hρ src).bind fun n => .ok rfl
  | printString src =>
    exact (Frame.follows_getStr hρ src).bind fun text => .ok rfl
  | readInt dst =>
    obtain ⟨input, output, steps, log⟩ := s
    cases input with
    | nil => exact rfl
    | cons n rest => exact hset dst (.int n)
  | intToStr dst src =>
    exact (Frame.follows_getInt hρ src).bind fun n => hset dst _
  | strToInt dst src =>
    refine (Frame.follows_getStr hρ src).bind fun text => ?_
    exact (Execution.Follows.same _ (.conversion text)).bind
      fun n => hset dst _

/-! ## Steps -/

/-- Parameters with new names hold the arguments. -/
theorem Store.foldl_set_rename {slot : Slot → Slot} (hslot : slot.Injective)
    (params : List (Slot × Ty)) (args : List Value) (s : Store Slot) :
    (((params.map fun b => (slot b.1, b.2)).map Prod.fst).zip args).foldl
        (fun slots arg => slots.set arg.1 arg.2) (s.rename slot)
      = (((params.map Prod.fst).zip args).foldl
        (fun slots arg => slots.set arg.1 arg.2) s).rename slot := by
  induction params generalizing args s with
  | nil => rfl
  | cons b params ih =>
    cases args with
    | nil => rfl
    | cons v args =>
      have h := ih args (s.set b.1 v)
      rw [set_rename hslot] at h
      exact h

/-- **A call of a renamed routine** starts in the renamed frame. -/
theorem Frame.enter_rename (hρ : ρ.IsInjective) (r : Routine)
    (args : List Value) :
    enter (r.rename ρ) args = (enter r args).rename ρ :=
  congrArg (Frame.mk _ _ · _ _ _) (Store.foldl_set_rename
    (hρ.slot r.name) r.prototype.params args .empty)

namespace Machine

variable {a : Assembly} {limit : Option Nat}

/-- **A renamed call starts alike.** -/
theorem enter_rename (hρ : ρ.IsInjective) (body : Ident) (r : Routine)
    (args : List Value) (callers : List Frame) (s : Session) :
    Machine.enter (r.rename ρ) args (callers.map (·.rename ρ)) (s.rename ρ)
      = (Machine.enter r args callers s).rename ρ body := by
  have hlength : (r.rename ρ).prototype.params.length
      = r.prototype.params.length := List.length_map _
  unfold Machine.enter
  simp only [hlength, Frame.enter_rename hρ]
  split <;> rfl

theorem leave_rename (body : Ident) (f : Frame) (callers : List Frame)
    (s : Session) :
    leave (f.rename ρ) (callers.map (·.rename ρ)) (s.rename ρ)
      = (leave f callers s).rename ρ body := by
  cases callers <;> rfl

/-- **A routine is called alike** by its new name. -/
theorem call_rename (hρ : ρ.IsInjective) (body callee : Ident) (f : Frame)
    (callers : List Frame) (s : Session) :
    Machine.call (a.rename ρ) (ρ.routine callee) (f.rename ρ)
        (callers.map (·.rename ρ)) (s.rename ρ)
      = (Machine.call a callee f callers s).rename ρ body := by
  unfold Machine.call
  rw [Assembly.routine?_rename hρ.routine]
  cases a.routine? callee with
  | none => rfl
  | some r =>
    rw [show collect (f.rename ρ).arguments 0 (f.rename ρ).argumentCount
      = collect f.arguments 0 f.argumentCount from rfl]
    cases collect f.arguments 0 f.argumentCount with
    | error index => rfl
    | ok args =>
      exact enter_rename hρ body r args
        ({ f with arguments := .empty } :: callers) s

/-- **A renamed instruction is performed alike.** -/
theorem perform_rename (hρ : ρ.IsInjective) (i : Instr) (f : Frame)
    (callers : List Frame) (s : Session) :
    perform (a.rename ρ) (i.rename (ρ.inBody f.name)) (f.rename ρ)
        (callers.map (·.rename ρ)) (s.rename ρ)
      = (perform a i f callers s).rename ρ f.name := by
  by_cases hleave : i = .leave
  · subst hleave
    exact leave_rename f.name f callers s
  by_cases hcall : ∃ callee, i = .call callee
  · obtain ⟨callee, rfl⟩ := hcall
    exact call_rename hρ f.name callee f callers s
  · have hleave' : i.rename (ρ.inBody f.name) ≠ .leave := by
      cases i <;> simp_all [Instr.rename]
    have hcall' : ∀ callee, i.rename (ρ.inBody f.name) ≠ .call callee := by
      cases i <;> simp_all [Instr.rename]
    rw [perform.eq_3 _ _ _ _ _ hleave' hcall',
      perform.eq_3 _ _ _ _ _ hleave (not_exists.mp hcall)]
    have hexecute := Instr.follows_execute hρ i a.symbols f s
    rw [show (a.rename ρ).symbols = a.symbols.rename ρ from rfl, hexecute]
    cases i.execute a.symbols f s <;> rfl

/-- **One step of a renamed state** leads to the renamed state. -/
theorem step_rename (hρ : ρ.IsInjective) (m : Machine) :
    (m.rename ρ).step (a.rename ρ) limit
      = (m.step a limit).rename ρ m.frame.name := by
  unfold Machine.step
  rw [show (m.rename ρ).frame.rest
    = m.frame.rest.rename (ρ.inBody m.frame.name) from rfl]
  cases m.frame.rest with
  | nil => exact leave_rename m.frame.name m.frame m.callers m.session
  | cons i rest =>
    dsimp only [Code.rename, List.map]
    rw [show (m.rename ρ).session.countStep.steps
      = m.session.countStep.steps from rfl]
    cases exceeded? limit m.session.countStep.steps with
    | some limit => rfl
    | none =>
      exact perform_rename hρ i { m.frame with rest := rest } m.callers
        (m.session.countStep.record (.step m.frame.name i))

end Machine

/-! ## Runs -/

variable {a : Assembly} {limit : Option Nat}

/-- **A run from a renamed state goes alike.** The places that an error names
are those of one body, the one in which the run has ended. -/
theorem Transition.follow_rename (hρ : ρ.IsInjective) (horizon : Nat)
    (tr : Transition) (body : Ident) :
    ∃ body', (tr.rename ρ body).follow (a.rename ρ) limit horizon
      = (tr.follow a limit horizon).map
        (Prod.map (Outcome.rename (ρ.inBody body')) (Session.rename ρ)) := by
  induction horizon generalizing tr body with
  | zero =>
    refine ⟨body, ?_⟩
    cases tr <;> rfl
  | succ horizon ih =>
    cases tr with
    | halt outcome s => exact ⟨body, rfl⟩
    | next m =>
      obtain ⟨body', h⟩ := ih (m.step a limit) m.frame.name
      refine ⟨body', ?_⟩
      rw [← Machine.step_rename hρ] at h
      exact h

/-- **Running commutes with renaming**: in a renamed session a renamed program
runs as the program does, with the same horizon and limit. -/
theorem Assembly.run_rename (hρ : ρ.IsInjective) (horizon : Nat)
    (s : Session) :
    ∃ body, (a.rename ρ).run limit horizon (s.rename ρ)
      = (a.run limit horizon s).map
        (Prod.map (Outcome.rename (ρ.inBody body)) (Session.rename ρ)) := by
  have h := @Transition.follow_rename ρ a limit hρ horizon
    (Machine.enter a.main [] [] s) a.main.name
  rw [← Machine.enter_rename hρ] at h
  exact h

end Primer
