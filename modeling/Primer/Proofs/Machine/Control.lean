import Primer.Machine.Run
import Primer.Proofs.Emission.Routines

/-!
# Where control goes

A frame executes the code of its routine from some place on. In a program
that is well formed control stays there: an instruction is followed by the
next one or by a label of the same code, a call starts another routine at its
beginning, and the end of a routine takes control back to where it was. Since
the last instruction of a routine is that end, no frame ever comes to the end
of its code without it.

`Machine.Inside` says of a state that every frame of it is inside the code of
its routine. One step preserves it (`Machine.Inside.step`), so it holds of
every state of every run (`Machine.Reachable.inside`).
-/

namespace Primer

/-- **The states that runs come to.** A run may start in any session. -/
inductive Machine.Reachable (a : Assembly) (limit : Option Nat) :
    Machine → Prop
  /-- The main routine is called. -/
  | start {session : Session} {m : Machine}
      (h : Machine.enter a.main [] [] session = .next m) :
    Reachable a limit m
  /-- One more step. -/
  | step {m m' : Machine} (h : Reachable a limit m)
      (hstep : m.step a limit = .next m') : Reachable a limit m'

/-- **A frame is inside the code of its routine**: it has some of it still to
execute. -/
structure Frame.Inside (a : Assembly) (f : Frame) : Prop where
  /-- The routine is one of the program. -/
  routine : f.routine ∈ a.bodies
  /-- What is still to be executed is a tail of its code. -/
  suffix : f.rest <:+ f.routine.code
  /-- Something is. -/
  nonempty : f.rest ≠ []

/-- Every frame of a state is inside the code of its routine. -/
structure Machine.Inside (a : Assembly) (m : Machine) : Prop where
  /-- The frame that is executed. -/
  frame : m.frame.Inside a
  /-- The frames that wait for it. -/
  callers : ∀ f ∈ m.callers, f.Inside a

/-- **Control is contained** in a state: it is inside the routines, it stays
in the routine with every instruction but `call` and `leave`, and it never
goes to a label that is not there. -/
structure Machine.Contained (a : Assembly) (limit : Option Nat)
    (m : Machine) : Prop where
  /-- Control is inside the routines. -/
  inside : m.Inside a
  /-- It stays in the routine unless that calls or ends. -/
  stays : ∀ i rest m', m.frame.rest = i :: rest → i ≠ .leave →
    (∀ callee, i ≠ .call callee) → m.step a limit = .next m' →
    m'.frame.routine = m.frame.routine ∧ m'.callers = m.callers
  /-- The label that it goes to is there. -/
  found : ∀ label routine session,
    m.step a limit ≠ .halt (.failed (.unknownLabel label routine)) session

/-! ## One instruction -/

theorem orFail_eq_ok {β : Type} {value? : Option β} {error : RuntimeError}
    {value : β} : orFail value? error = .ok value ↔ value? = some value := by
  cases value? with
  | none => exact ⟨nofun, nofun⟩
  | some v => exact ⟨fun h => congrArg some (Except.ok.inj h),
      fun h => congrArg Except.ok (Option.some.inj h)⟩

theorem Frame.goTo_eq_ok {f f' : Frame} {label : Label} :
    f.goTo label = .ok f' ↔ ∃ rest,
      Code.atLabel? label f.routine.code = some rest
        ∧ { f with rest := rest } = f' := by
  unfold goTo
  simp only [bind_eq_ok, orFail_eq_ok, pure_eq_ok]

/-- **What one instruction does to control**: it goes on, if the instruction
has no targets, or it goes to one of them. -/
theorem Instr.execute_eq_ok {i : Instr} {symbols : SymbolTable}
    {f f' : Frame} {s s' : Session}
    (h : i.execute symbols f s = .ok (f', s')) :
    f'.routine = f.routine ∧ ((i.targets = [] ∧ f'.rest = f.rest)
      ∨ ∃ l ∈ i.targets, Code.atLabel? l f.routine.code = some f'.rest) := by
  cases i with
  | label | enter | nop | leave | call | set =>
    cases pure_eq_ok.mp h
    exact ⟨rfl, Or.inl ⟨rfl, rfl⟩⟩
  | move | fetchResult | setResult | loadString | printInt | printString
  | intToStr =>
    obtain ⟨_, -, h⟩ := bind_eq_ok.mp h
    cases pure_eq_ok.mp h
    exact ⟨rfl, Or.inl ⟨rfl, rfl⟩⟩
  | strToInt =>
    obtain ⟨_, -, h⟩ := bind_eq_ok.mp h
    obtain ⟨_, -, h⟩ := bind_eq_ok.mp h
    cases pure_eq_ok.mp h
    exact ⟨rfl, Or.inl ⟨rfl, rfl⟩⟩
  | arith =>
    obtain ⟨_, -, h⟩ := bind_eq_ok.mp h
    obtain ⟨_, -, h⟩ := bind_eq_ok.mp h
    obtain ⟨_, -, h⟩ := bind_eq_ok.mp h
    cases pure_eq_ok.mp h
    exact ⟨rfl, Or.inl ⟨rfl, rfl⟩⟩
  | setArgument =>
    obtain ⟨_, -, h⟩ := bind_eq_ok.mp h
    split at h
    · cases pure_eq_ok.mp h
      exact ⟨rfl, Or.inl ⟨rfl, rfl⟩⟩
    · cases h
  | readInt =>
    rw [execute] at h
    split at h
    · cases h
    · cases pure_eq_ok.mp h
      exact ⟨rfl, Or.inl ⟨rfl, rfl⟩⟩
  | jump target =>
    obtain ⟨_, hgo, h⟩ := bind_eq_ok.mp h
    cases pure_eq_ok.mp h
    obtain ⟨rest, hrest, rfl⟩ := Frame.goTo_eq_ok.mp hgo
    exact ⟨rfl, Or.inr ⟨_, by simp [targets], hrest⟩⟩
  | branchCompare =>
    obtain ⟨_, -, h⟩ := bind_eq_ok.mp h
    obtain ⟨_, -, h⟩ := bind_eq_ok.mp h
    obtain ⟨holds, -, h⟩ := bind_eq_ok.mp h
    obtain ⟨_, hgo, h⟩ := bind_eq_ok.mp h
    cases pure_eq_ok.mp h
    obtain ⟨rest, hrest, rfl⟩ := Frame.goTo_eq_ok.mp hgo
    exact ⟨rfl, Or.inr ⟨_, by cases holds <;> simp [targets], hrest⟩⟩
  | branchZero test =>
    obtain ⟨n, -, h⟩ := bind_eq_ok.mp h
    obtain ⟨_, hgo, h⟩ := bind_eq_ok.mp h
    cases pure_eq_ok.mp h
    obtain ⟨rest, hrest, rfl⟩ := Frame.goTo_eq_ok.mp hgo
    exact ⟨rfl, Or.inr ⟨_, by cases test.passes n <;> simp [targets], hrest⟩⟩

/-- An execution that looks for no label in vain. -/
def Execution.Finds {β : Type} (x : Execution β) : Prop :=
  ∀ label routine, x ≠ .error (.failed (.unknownLabel label routine))

namespace Execution

variable {β γ : Type}

theorem finds_ok (b : β) : Finds (.ok b) := nofun

/-- Two executions, one after the other, look for no label in vain if neither
does. -/
theorem Finds.bind {x : Execution β} (h : Finds x) {k : β → Execution γ}
    (hk : ∀ b, Finds (k b)) : Finds (x >>= k) := by
  cases x with
  | ok b => exact hk b
  | error outcome =>
    intro label routine heq
    exact h label routine (congrArg Except.error (Except.error.inj heq))

/-- Another error is not that of a label. -/
theorem finds_orFail {value? : Option β} {error : RuntimeError}
    (h : ∀ label routine, error ≠ .unknownLabel label routine) :
    Finds (orFail value? error) := by
  cases value? with
  | some b => exact nofun
  | none =>
    intro label routine heq
    exact h label routine (Outcome.failed.inj (Except.error.inj heq))

theorem finds_get (f : Frame) (slot : Slot) : Finds (f.get slot) :=
  finds_orFail nofun

theorem finds_getInt (f : Frame) (slot : Slot) : Finds (f.getInt slot) :=
  (finds_get f slot).bind fun value => by
    cases value <;> exact nofun

theorem finds_getStr (f : Frame) (slot : Slot) : Finds (f.getStr slot) :=
  (finds_get f slot).bind fun value => by
    cases value <;> exact nofun

theorem finds_goTo {f : Frame} {label : Label}
    (h : label ∈ f.routine.code.labels) : Finds (f.goTo label) := by
  unfold Frame.goTo
  cases hfound : Code.atLabel? label f.routine.code with
  | none => exact absurd h (Code.atLabel?_eq_none.mp hfound)
  | some rest => exact nofun

end Execution

open Execution in
/-- **An instruction looks for no label in vain** if its targets are there. -/
theorem Instr.finds_execute {i : Instr} {symbols : SymbolTable} {f : Frame}
    {s : Session} (h : i.targets ⊆ f.routine.code.labels) :
    Finds (i.execute symbols f s) := by
  cases i with
  | label | enter | nop | leave | call | set => exact finds_ok _
  | move | setResult => exact (finds_get f _).bind fun _ => finds_ok _
  | fetchResult | loadString =>
    refine (finds_orFail ?_).bind fun _ => finds_ok _
    exact nofun
  | printInt | intToStr => exact (finds_getInt f _).bind fun _ => finds_ok _
  | printString => exact (finds_getStr f _).bind fun _ => finds_ok _
  | strToInt =>
    refine (finds_getStr f _).bind fun _ =>
      (finds_orFail ?_).bind fun _ => finds_ok _
    exact nofun
  | arith =>
    refine (finds_getInt f _).bind fun _ => (finds_getInt f _).bind fun _ =>
      (finds_orFail ?_).bind fun _ => finds_ok _
    exact nofun
  | setArgument index =>
    refine (finds_get f _).bind fun _ => ?_
    split <;> exact nofun
  | readInt =>
    rw [execute]
    split <;> exact nofun
  | jump =>
    exact (finds_goTo (h (by simp [targets]))).bind fun _ => finds_ok _
  | branchCompare =>
    refine (finds_get f _).bind fun _ => (finds_get f _).bind fun _ =>
      (finds_orFail ?_).bind fun holds =>
        (finds_goTo (h (by cases holds <;> simp [targets]))).bind fun _ =>
          finds_ok _
    exact nofun
  | branchZero test =>
    exact (finds_getInt f _).bind fun n =>
      (finds_goTo (h (by cases test.passes n <;> simp [targets]))).bind
        fun _ => finds_ok _

/-! ## One step -/

namespace Machine

variable {a : Assembly} {limit : Option Nat} {m m' : Machine}

/-- A step executes the next instruction, unless the limit is exceeded. -/
theorem step_eq_next {i : Instr} {rest : Code}
    (hrest : m.frame.rest = i :: rest) (h : m.step a limit = .next m') :
    perform a i { m.frame with rest := rest } m.callers
      (m.session.countStep.record (.step m.frame.name i)) = .next m' := by
  rw [step, hrest] at h
  simp only at h
  split at h
  · cases h
  · exact h

/-- An instruction that is neither `call` nor `leave` is executed. -/
theorem perform_eq_next {i : Instr} (hleave : i ≠ .leave)
    (hcall : ∀ callee, i ≠ .call callee) {f : Frame} {callers : List Frame}
    {s : Session} (h : perform a i f callers s = .next m') :
    i.execute a.symbols f s = .ok (m'.frame, m'.session)
      ∧ m'.callers = callers := by
  rw [perform.eq_3 a i f callers s hleave hcall] at h
  split at h
  · next hexecute =>
    cases h
    exact ⟨hexecute, rfl⟩
  · cases h

/-- The call of a routine starts at its beginning. -/
theorem enter_eq_next {r : Routine} {args : List Value}
    {callers : List Frame} {s : Session}
    (h : Machine.enter r args callers s = .next m') :
    m'.frame = .enter r args ∧ m'.callers = callers := by
  unfold Machine.enter at h
  simp only at h
  split at h
  · cases h
  · cases h
    exact ⟨rfl, rfl⟩

/-- A call starts the routine of the name at its beginning, with all arguments
that were set aside, and the frame that called waits without arguments. -/
theorem call_eq_next {callee : Ident} {f : Frame} {callers : List Frame}
    {s : Session} (h : Machine.call a callee f callers s = .next m') :
    ∃ r args, a.routine? callee = some r
      ∧ collect f.arguments 0 f.argumentCount = .ok args
      ∧ m'.frame = .enter r args
      ∧ m'.callers = { f with arguments := .empty } :: callers := by
  unfold Machine.call at h
  split at h
  · cases h
  · next r hr =>
    split at h
    · cases h
    · next args hargs =>
      obtain ⟨hframe, hcallers⟩ := enter_eq_next h
      exact ⟨r, args, hr, hargs, hframe, hcallers⟩

/-- The end of a call takes control back to the caller. -/
theorem leave_eq_next {f : Frame} {callers : List Frame} {s : Session}
    (h : leave f callers s = .next m') :
    ∃ caller, callers = caller :: m'.callers
      ∧ m'.frame = { caller with received := f.result } := by
  cases callers with
  | nil => cases h
  | cons caller callers =>
    cases h
    exact ⟨caller, rfl, rfl⟩

/-- A call does not look for a label. -/
theorem call_ne_unknownLabel {callee : Ident} {f : Frame}
    {callers : List Frame} {s s' : Session} {label : Label}
    {routine : Ident} : Machine.call a callee f callers s
      ≠ .halt (.failed (.unknownLabel label routine)) s' := by
  intro h
  unfold Machine.call Machine.enter at h
  split at h
  · cases h
  · split at h
    · cases h
    · simp only at h
      split at h <;> cases h

/-- Performing an instruction whose targets are there looks for no label in
vain. -/
theorem perform_ne_unknownLabel {i : Instr} {f : Frame}
    (hi : i.targets ⊆ f.routine.code.labels) {callers : List Frame}
    {s s' : Session} {label : Label} {routine : Ident} :
    perform a i f callers s
      ≠ .halt (.failed (.unknownLabel label routine)) s' := by
  intro h
  unfold perform at h
  split at h
  · cases callers <;> cases h
  · exact call_ne_unknownLabel h
  · split at h
    · cases h
    · next herror =>
      cases h
      exact Instr.finds_execute hi _ _ herror

end Machine

/-! ## Inside the routines -/

variable {a : Assembly} {limit : Option Nat} {m m' : Machine}

/-- A tail of the code of a routine that starts with anything but the end is
followed by more. -/
theorem Routine.WellFormed.rest_ne_nil {symbols : SymbolTable} {r : Routine}
    (h : r.WellFormed symbols) {i : Instr} {rest : Code}
    (hsuffix : i :: rest <:+ r.code) (hi : i ≠ .leave) : rest ≠ [] := by
  rintro rfl
  obtain ⟨body, exit, hcode, -⟩ := h.shape
  obtain ⟨before, hbefore⟩ := hsuffix
  have hlast := congrArg List.getLast? hbefore
  rw [hcode] at hlast
  simp only [List.getLast?_append, List.getLast?_cons, List.getLast?_nil,
    Option.getD_none, Option.some_or, Option.some.injEq,
    Option.getD_some] at hlast
  exact hi hlast

/-- The beginning of a routine is inside its code. -/
theorem Frame.inside_enter (h : a.WellFormed) {r : Routine}
    (hr : r ∈ a.bodies) (args : List Value) :
    (Frame.enter r args).Inside a where
  routine := hr
  suffix := List.suffix_refl _
  nonempty := by
    obtain ⟨body, exit, hcode, -⟩ := (h.bodies r hr).shape
    rw [Frame.enter, hcode]
    exact List.cons_ne_nil _ _

/-- A frame that is inside stays inside after an instruction that is not its
end. -/
theorem Frame.Inside.tail (h : a.WellFormed) {f : Frame} (hf : f.Inside a)
    {i : Instr} {rest : Code} (hrest : f.rest = i :: rest)
    (hi : i ≠ .leave) : Frame.Inside a { f with rest := rest } where
  routine := hf.routine
  suffix := (List.suffix_cons i rest).trans (hrest ▸ hf.suffix)
  nonempty := (h.bodies _ hf.routine).rest_ne_nil (hrest ▸ hf.suffix) hi

/-- **One step keeps control inside the routines.** -/
theorem Machine.Inside.step (h : a.WellFormed) (hm : m.Inside a)
    (hstep : m.step a limit = .next m') : m'.Inside a := by
  cases hrest : m.frame.rest with
  | nil => exact absurd hrest hm.frame.nonempty
  | cons i rest =>
    have hperform := step_eq_next hrest hstep
    -- `leave` and `call` change the frame, any other instruction its position
    by_cases hleave : i = .leave
    · subst hleave
      obtain ⟨caller, hcallers, hframe⟩ := leave_eq_next hperform
      have hinside := List.forall_mem_cons.mp (hcallers ▸ hm.callers)
      constructor
      · rw [hframe]
        exact ⟨hinside.1.routine, hinside.1.suffix, hinside.1.nonempty⟩
      · exact hinside.2
    · have htail := hm.frame.tail h hrest hleave
      by_cases hcall : ∃ callee, i = .call callee
      · obtain ⟨callee, rfl⟩ := hcall
        obtain ⟨r, args, hfind, -, hframe, hcallers⟩ := call_eq_next hperform
        have hr : r ∈ a.routines := List.mem_of_find?_eq_some hfind
        constructor
        · rw [hframe]
          exact Frame.inside_enter h (List.mem_append_left _ hr) args
        · rw [hcallers]
          exact List.forall_mem_cons.mpr
            ⟨⟨htail.routine, htail.suffix, htail.nonempty⟩, hm.callers⟩
      · obtain ⟨hexecute, hcallers⟩ :=
          perform_eq_next hleave (not_exists.mp hcall) hperform
        obtain ⟨hroutine, hnext⟩ := Instr.execute_eq_ok hexecute
        constructor
        · rcases hnext with ⟨-, hnext⟩ | ⟨l, -, hnext⟩
          · exact ⟨hroutine ▸ htail.routine, by
              rw [hroutine, hnext]; exact htail.suffix,
              hnext ▸ htail.nonempty⟩
          · obtain ⟨hsuffix, _, hfound⟩ := Code.atLabel?_eq_some hnext
            exact ⟨hroutine ▸ htail.routine, by
              rw [hroutine]; exact hsuffix, by
              rw [hfound]; exact List.cons_ne_nil _ _⟩
        · rw [hcallers]
          exact hm.callers

/-- **Control is inside the routines in every state of every run.** -/
theorem Machine.Reachable.inside (h : a.WellFormed)
    (hm : m.Reachable a limit) : m.Inside a := by
  induction hm with
  | start henter =>
    obtain ⟨hframe, hcallers⟩ := enter_eq_next henter
    constructor
    · rw [hframe]
      exact Frame.inside_enter h (List.mem_append_right _ (by simp)) []
    · rw [hcallers]
      exact nofun
  | step _ hstep ih => exact ih.step h hstep

/-- Inside the routines control is contained. -/
theorem Machine.Inside.contained (h : a.WellFormed) (hm : m.Inside a) :
    m.Contained a limit where
  inside := hm
  stays i rest m' hrest hleave hcall hstep := by
    obtain ⟨hexecute, hcallers⟩ :=
      perform_eq_next hleave hcall (step_eq_next hrest hstep)
    exact ⟨(Instr.execute_eq_ok hexecute).1, hcallers⟩
  found label routine session hstep := by
    have htargets := (h.bodies _ hm.frame.routine).targets
    cases hrest : m.frame.rest with
    | nil => exact hm.frame.nonempty hrest
    | cons i rest =>
      let f : Frame := { m.frame with rest := rest }
      have hi : i.targets ⊆ f.routine.code.labels := fun l hl =>
        htargets (List.mem_flatMap.mpr
          ⟨i, hm.frame.suffix.mem (hrest ▸ List.mem_cons_self ..), hl⟩)
      rw [Machine.step, hrest] at hstep
      simp only at hstep
      split at hstep
      · cases hstep
      · exact perform_ne_unknownLabel hi hstep

/-- **Emitted code is well formed and contains control**, in every state of
every run. Its routines are those of the definitions, in order, and that of
the main script. -/
theorem Program.emit_contained {p : Program Span} {typed : TypedProgram}
    (hcheck : p.check = .ok typed)
    (hnames : ∀ d ∈ p.definitions, ¬ d.name.BeginsWith '.')
    (hemit : typed.emit = .ok a) :
    a.bodies.map Routine.name
        = p.definitions.map Definition.name ++ [entryPoint]
      ∧ a.WellFormed
      ∧ ∀ limit m, Machine.Reachable a limit m → m.Contained a limit := by
  have hsound := check_sound hcheck
  have hemits := TypedProgram.emits_of_emit hemit
  have hwell := hemits.wellFormed hsound hnames
  exact ⟨hemits.map_name_bodies hsound, hwell, fun limit m hm =>
    (hm.inside hwell).contained hwell⟩

/-- A program that doubles integers of the input until one is not positive. -/
def Program.doubling : Program Span where
  definitions := [{
    name := "double"
    params := [("n", .int)]
    ret := .int
    body := .spanning [
      .ifElse .origin (.binary .origin (.compare .less) (.var .origin "n")
          (.lit .origin (.int 0)))
        (.spanning [.ret .origin (.lit .origin (.int 0))]) (.spanning []),
      .ret .origin (.binary .origin (.arith .add) (.var .origin "n")
        (.var .origin "n"))]
    nameSpan := .origin }]
  main := .spanning [
    .introduce .origin "n" .int (.input .origin (.lit .origin (.str "? "))),
    .whileLoop .origin (.binary .origin (.compare .less)
        (.lit .origin (.int 0)) (.var .origin "n"))
      (.spanning [
        .print .origin [.call .origin "double" [.var .origin "n"]],
        .assign .origin "n" (.input .origin (.lit .origin (.str "? ")))])]

theorem Program.exists_compile_doubling : ∃ a, doubling.compile = .ok a := by
  have h : doubling.compile.toOption.isSome = true := by decide +kernel
  cases hcompile : doubling.compile with
  | error e => simp [hcompile, Except.toOption] at h
  | ok a => exact ⟨a, rfl⟩

/-- The code of the doubling program contains control. -/
theorem Program.emit_contained_doubling : ∃ typed a,
    doubling.check = .ok typed ∧ typed.emit = .ok a ∧ a.WellFormed
      ∧ ∀ limit m, Machine.Reachable a limit m → m.Contained a limit := by
  obtain ⟨a, hcompile⟩ := exists_compile_doubling
  obtain ⟨typed, hcheck, hemit⟩ := compile_eq_ok.mp hcompile
  have hnames : ∀ d ∈ doubling.definitions, ¬ d.name.BeginsWith '.' := by
    decide
  exact ⟨typed, a, hcheck, hemit, (emit_contained hcheck hnames hemit).2⟩

end Primer
