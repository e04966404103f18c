import Primer.Proofs.Machine.Arguments
import Primer.Proofs.Machine.Concrete

/-!
# When the machine breaks down

A machine in words and blocks *shows* the machine that it is in the place of
(`Concrete.Machine.Shows`): its frames have positions where those of the other
have tails of the code, and blocks that hold what is in their stores. An
instruction is executed alike on both (`Concrete.matches_execute`), or else it
breaks the one down and crashes the other. So a step is made alike
(`Concrete.Machine.step_shows`) and a run is followed alike
(`Concrete.follow_agree`).

What can break the machine down is known instruction by instruction, and there
is only one that does it (`Concrete.Breaks`). An argument is set aside in a
block that is grown by need. For an index that is too great there is no memory.
With the greatest index of all it does not come to that: the size would be one
more, and that is no word.
-/

namespace Primer

open Concrete

namespace Concrete

/-! ## Blocks and stores -/

/-- **A block holds the arguments of a store**: those that the store has are at
their indices, and there is no place beyond the greatest of them. -/
structure Block.Holds (block : Block) (store : Store Nat) : Prop where
  /-- The places hold the values. -/
  get : ∀ i : Nat, store.get? i = block[i]?.join
  /-- The block ends where the indices end. -/
  length_le : ∀ n, block.length ≤ n ↔ ∀ i, store.get? i ≠ none → i < n
  /-- There is memory for the block. -/
  room : block.length ≤ argumentRoom

namespace Block

variable {block : Block} {store : Store Nat} {index : Nat} {value : Value}

theorem holds_empty : Holds [] .empty where
  get _ := rfl
  length_le n := ⟨fun _ _ h => absurd rfl h, fun _ => Nat.zero_le n⟩
  room := Nat.zero_le _

/-- A block with a place filled, which it may have to be grown for. -/
def put (block : Block) (index : Nat) (value : Value) : Block :=
  (block ++ List.replicate (index + 1 - block.length) none).set index
    (some value)

theorem length_put :
    (block.put index value).length = max block.length (index + 1) := by
  rw [put, List.length_set, List.length_append, List.length_replicate]
  omega

/-- An index beyond the end of a block has the block grown, if one more than
the index is a word. -/
theorem setAside_eq_grow (h : block.length ≤ index)
    (hword : index + 1 < UInt64.size) : block.setAside index value
      = block.grow (index + 1) >>= fun grown => grown.fill index value := by
  have hsum : sum index 1 = .ok (index + 1) := if_pos hword
  rw [setAside, if_pos h, hsum]
  rfl

/-- **An argument is set aside** if there is memory for its index. -/
theorem setAside_of_lt (hindex : index < argumentRoom) :
    block.setAside index value = .ok (block.put index value) := by
  have hfill : ∀ grown : Block, index < grown.length →
      grown.fill index value = .ok (grown.set index (some value)) :=
    fun _ h => if_pos h
  rcases Nat.lt_or_ge index block.length with hlt | hge
  · have hnone : index + 1 - block.length = 0 := by omega
    rw [put, hnone, List.replicate_zero, List.append_nil, setAside,
      if_neg (Nat.not_le.mpr hlt)]
    exact hfill block hlt
  · have hword : index + 1 < UInt64.size :=
      Nat.lt_of_le_of_lt hindex (by decide)
    have hgrow : block.grow (index + 1)
        = .ok (block ++ List.replicate (index + 1 - block.length) none) :=
      if_pos hindex
    rw [setAside_eq_grow hge hword, hgrow]
    refine hfill _ ?_
    rw [List.length_append, List.length_replicate]
    omega

/-- **There is no memory for an index that is too great.** -/
theorem setAside_of_le (hroom : block.length ≤ argumentRoom)
    (hindex : argumentRoom ≤ index) (hword : index + 1 < UInt64.size) :
    block.setAside index value = breakDown .outOfMemory := by
  have hgrow : block.grow (index + 1) = breakDown .outOfMemory :=
    if_neg (Nat.not_le.mpr (Nat.lt_succ_of_le hindex))
  rw [setAside_eq_grow (Nat.le_trans hroom hindex) hword, hgrow]
  rfl

/-- **One more than the greatest word is no word.** -/
theorem setAside_of_size_le (hroom : block.length ≤ argumentRoom)
    (hindex : argumentRoom ≤ index) (hword : UInt64.size ≤ index + 1) :
    block.setAside index value = breakDown .overflow := by
  have hsum : sum index 1 = breakDown .overflow :=
    if_neg (Nat.not_lt.mpr hword)
  rw [setAside, if_pos (Nat.le_trans hroom hindex), hsum]
  rfl

/-- A block with a place filled holds one more argument. -/
theorem Holds.put (h : block.Holds store) (hindex : index < argumentRoom) :
    (block.put index value).Holds (store.set index value) where
  get i := by
    by_cases hi : index = i
    · subst hi
      have hlt : index < block.length + (index + 1 - block.length) := by omega
      rw [Store.get?_set_self, Block.put, List.getElem?_set_self (by simpa)]
      rfl
    · rw [Store.get?_set_of_ne store value hi, Block.put,
        List.getElem?_set_ne hi, h.get]
      rcases Nat.lt_or_ge i block.length with hlt | hge
      · rw [List.getElem?_append_left hlt]
      · -- an added place holds nothing
        rw [List.getElem?_eq_none hge, List.getElem?_append_right hge,
          List.getElem?_replicate]
        split <;> rfl
  length_le n := by
    have hset : (∀ i, (store.set index value).get? i ≠ none → i < n)
        ↔ index < n ∧ ∀ i, store.get? i ≠ none → i < n := by
      constructor
      · intro hall
        refine ⟨hall index (by simp), fun i hi => hall i ?_⟩
        by_cases heq : index = i
        · simp [heq]
        · rwa [Store.get?_set_of_ne store value heq]
      · rintro ⟨hlt, hall⟩ i hi
        by_cases heq : index = i
        · exact heq ▸ hlt
        · exact hall i (Store.get?_set_of_ne store value heq ▸ hi)
    rw [length_put, Nat.max_le, h.length_le, hset, and_comm,
      Nat.succ_le_iff]
  room := by
    rw [length_put]
    exact Nat.max_le.mpr ⟨h.room, hindex⟩

/-- The values of a block are those collected from the store. -/
theorem collect_eq_values {first : Nat}
    (h : ∀ i : Nat, store.get? (first + i) = block[i]?.join) :
    collect store first block.length = block.values first := by
  induction block generalizing first with
  | nil => rfl
  | cons place block ih =>
    have hfirst : store.get? first = place := h 0
    have hrest := @ih (first + 1) fun i => by
      rw [Nat.add_assoc, Nat.add_comm 1 i]
      exact h (i + 1)
    rw [List.length_cons, collect, hfirst]
    cases place with
    | none => rfl
    | some value =>
      simp only [hrest]
      rfl

end Block

/-! ## Frames -/

/-- **A frame shows a frame of the machine.** -/
structure Frame.Shows (g : Frame) (f : Primer.Frame) : Prop where
  /-- Both are of one routine. -/
  routine : f.routine = g.routine
  /-- The code to be executed is what is left at the position. -/
  rest : f.rest = g.routine.code.drop g.position
  /-- The position is within the code. -/
  inside : g.position ≤ g.routine.code.length
  /-- Positions in the code are words. -/
  addressable : g.routine.code.length < UInt64.size
  /-- The places have the same values. -/
  slots : f.slots = g.slots
  /-- The same arguments are set aside. -/
  arguments : g.arguments.Holds f.arguments
  /-- The last callee handed back the same. -/
  received : f.received = g.received
  /-- The same will be handed back. -/
  result : f.result = g.result

/-- **What breaks the machine down.** -/
inductive Breaks : Instr → Breakdown → Prop
  /-- There is no memory for an argument. -/
  | outOfMemory {index : UInt64} {src : Slot}
      (hroom : argumentRoom ≤ index.toNat)
      (hword : index.toNat + 1 < UInt64.size) :
    Breaks (.setArgument index src) .outOfMemory
  /-- One more than the index is no word. -/
  | overflow {index : UInt64} {src : Slot}
      (hword : index.toNat + 1 = UInt64.size) :
    Breaks (.setArgument index src) .overflow

/-- **An attempt matches an execution** of an instruction: both have results,
which are related, or the same error, or the instruction breaks the machine
down. -/
inductive Matches {β γ : Type} (i : Instr) (R : β → γ → Prop) :
    Attempt β → Execution γ → Prop
  /-- Both have results. -/
  | ok {b : β} {c : γ} (h : R b c) : Matches i R (.ok b) (.ok c)
  /-- Both have the same error. -/
  | failed (error : RuntimeError) :
    Matches i R (.error (.failed error)) (.error (.failed error))
  /-- The machine breaks down, which is a crash. -/
  | broken {why : Breakdown} (h : Breaks i why) :
    Matches i R (.error (.broken why)) (.error .crashed)

section Matches

variable {i : Instr}

theorem Matches.bind {β γ β' γ' : Type} {R : β → γ → Prop}
    {S : β' → γ' → Prop} {x : Attempt β} {y : Execution γ}
    (h : Matches i R x y) {k : β → Attempt β'} {l : γ → Execution γ'}
    (hk : ∀ b c, R b c → Matches i S (k b) (l c)) :
    Matches i S (x >>= k) (y >>= l) := by
  cases h with
  | ok h => exact hk _ _ h
  | failed error => exact .failed error
  | broken h => exact .broken h

theorem Matches.bind_eq {β β' γ' : Type} {S : β' → γ' → Prop}
    {x : Attempt β} {y : Execution β} (h : Matches i Eq x y)
    {k : β → Attempt β'} {l : β → Execution γ'}
    (hk : ∀ b, Matches i S (k b) (l b)) : Matches i S (x >>= k) (y >>= l) :=
  h.bind fun b _ hb => hb ▸ hk b

theorem matches_orEnd {β : Type} (value? : Option β) (error : RuntimeError) :
    Matches i Eq (orEnd value? (.failed error)) (orFail value? error) := by
  cases value? with
  | none => exact .failed error
  | some value => exact .ok rfl

/-- **An operation is computed**, and no guard fails. -/
theorem matches_compute (op : ArithOp) (a b : Int64) (routine : Ident) :
    Matches i Eq (compute op a b routine)
      (orFail (op.compute? a b) (.divisionByZero routine)) := by
  cases op with
  | add | sub | mul => exact .ok rfl
  | div | mod =>
    unfold compute ArithOp.compute?
    by_cases hb : b = 0
    · simp only [if_pos hb]
      exact .failed _
    · simp only [if_neg hb, quotient, floorDiv?_eq hb]
      exact .ok rfl

variable {g : Frame} {f : Primer.Frame} (h : g.Shows f)

include h

theorem Frame.Shows.name : f.name = g.name := congrArg Routine.name h.routine

theorem matches_get (slot : Slot) : Matches i Eq (g.get slot) (f.get slot) := by
  rw [Primer.Frame.get, h.slots, h.name]
  exact matches_orEnd _ _

theorem matches_getInt (slot : Slot) :
    Matches i Eq (g.getInt slot) (f.getInt slot) :=
  (matches_get h slot).bind_eq fun value => by
    cases value with
    | int n => exact .ok rfl
    | str s => exact .failed _

theorem matches_getStr (slot : Slot) :
    Matches i Eq (g.getStr slot) (f.getStr slot) :=
  (matches_get h slot).bind_eq fun value => by
    cases value with
    | int n => exact .failed _
    | str s => exact .ok rfl

/-- **The position of a label** shows the code from the label on. -/
theorem matches_goTo (label : Label) :
    Matches i Frame.Shows (g.goTo label) (f.goTo label) := by
  rw [Frame.goTo, Primer.Frame.goTo, h.name, Code.atLabel?_eq_map_drop,
    h.routine]
  cases hposition : Code.position? label g.routine.code with
  | none => exact .failed _
  | some position =>
    exact .ok { h with
      routine := rfl
      rest := rfl
      inside := Nat.le_of_lt (Code.position?_lt hposition) }

theorem Frame.Shows.set (slot : Slot) (value : Value) :
    (g.set slot value).Shows (f.set slot value) :=
  { h with slots := congrArg (·.set slot value) h.slots }

/-- **An argument is set aside**, unless that breaks the machine down. -/
theorem matches_setAside (index : UInt64) (src : Slot) (value : Value)
    (s : Session) :
    Matches (.setArgument index src)
      (fun (b : Frame × Session) c => b.1.Shows c.1 ∧ c.2 = b.2)
      (do
        let arguments ← g.arguments.setAside index.toNat value
        return ({ g with arguments := arguments }, s))
      (if index.toNat < argumentRoom then
        return ({ f with arguments := f.arguments.set index.toNat value }, s)
      else .error .crashed) := by
  have hroom := h.arguments.room
  have hindex := index.toNat_lt_size
  split
  · next hlt =>
    rw [Block.setAside_of_lt hlt]
    exact .ok ⟨{ h with arguments := h.arguments.put hlt }, rfl⟩
  · next hge =>
    rcases Nat.lt_or_ge (index.toNat + 1) UInt64.size with hword | hword
    · rw [Block.setAside_of_le hroom (Nat.le_of_not_lt hge) hword]
      exact .broken (.outOfMemory (Nat.le_of_not_lt hge) hword)
    · rw [Block.setAside_of_size_le hroom (Nat.le_of_not_lt hge) hword]
      exact .broken (.overflow (Nat.le_antisymm hindex hword))

/-- **Every instruction is executed alike** on a frame and the one that it
shows. -/
theorem matches_execute (symbols : SymbolTable) (s : Session) (i : Instr) :
    Matches i (fun (b : Frame × Session) c => b.1.Shows c.1 ∧ c.2 = b.2)
      (execute symbols g s i) (i.execute symbols f s) := by
  cases i with
  | label | enter | nop | leave | call => exact .ok ⟨h, rfl⟩
  | set dst value => exact .ok ⟨h.set dst _, rfl⟩
  | move dst src =>
    exact (matches_get h src).bind_eq fun value => .ok ⟨h.set dst _, rfl⟩
  | arith op dst lhs rhs =>
    refine (matches_getInt h lhs).bind_eq fun a =>
      (matches_getInt h rhs).bind_eq fun b => ?_
    rw [h.name]
    exact (matches_compute op a b _).bind_eq fun _ => .ok ⟨h.set dst _, rfl⟩
  | jump target =>
    exact (matches_goTo h target).bind fun _ _ h => .ok ⟨h, rfl⟩
  | branchCompare op lhs rhs ifTrue ifFalse =>
    exact (matches_get h lhs).bind_eq fun a =>
      (matches_get h rhs).bind_eq fun b =>
      (matches_orEnd _ _).bind_eq fun holds =>
      (matches_goTo h _).bind fun _ _ h => .ok ⟨h, rfl⟩
  | branchZero test src ifTrue ifFalse =>
    exact (matches_getInt h src).bind_eq fun n =>
      (matches_goTo h _).bind fun _ _ h => .ok ⟨h, rfl⟩
  | setArgument index src =>
    exact (matches_get h src).bind_eq fun value =>
      matches_setAside h index src value s
  | fetchResult dst =>
    have hreceived : Frame.Shows { g with received := none }
        { f with received := none } := { h with received := rfl }
    rw [execute, Instr.execute, h.received, h.name]
    exact (matches_orEnd _ _).bind_eq fun value =>
      .ok ⟨hreceived.set dst value, rfl⟩
  | setResult src =>
    exact (matches_get h src).bind_eq fun value =>
      .ok ⟨{ h with result := rfl }, rfl⟩
  | loadString dst constant =>
    exact (matches_orEnd _ _).bind_eq fun text => .ok ⟨h.set dst _, rfl⟩
  | printInt src =>
    exact (matches_getInt h src).bind_eq fun n => .ok ⟨h, rfl⟩
  | printString src =>
    exact (matches_getStr h src).bind_eq fun text => .ok ⟨h, rfl⟩
  | readInt dst =>
    rw [execute, Instr.execute]
    cases s.input with
    | nil => exact .failed _
    | cons n input => exact .ok ⟨h.set dst _, rfl⟩
  | intToStr dst src =>
    exact (matches_getInt h src).bind_eq fun n => .ok ⟨h.set dst _, rfl⟩
  | strToInt dst src =>
    exact (matches_getStr h src).bind_eq fun text =>
      (matches_orEnd _ _).bind_eq fun n => .ok ⟨h.set dst _, rfl⟩

end Matches

/-! ## Machines -/

/-- **A machine shows a machine**: all its frames do, and the session is the
same. -/
structure Machine.Shows (g : Machine) (m : Primer.Machine) : Prop where
  /-- The frame that is executed. -/
  frame : g.frame.Shows m.frame
  /-- The frames that wait for it. -/
  callers : List.Forall₂ Frame.Shows g.callers m.callers
  /-- What lasts beyond the run. -/
  session : m.session = g.session

/-- **The same end of a run**, with the machine broken down if it crashed. -/
inductive SameEnd : Outcome → Primer.Outcome → Session → Prop
  /-- The main routine ended. -/
  | finished {s : Session} : SameEnd .finished .finished s
  /-- There is an error. -/
  | failed {s : Session} (error : RuntimeError) :
    SameEnd (.failed error) (.failed error) s
  /-- The instruction that was about to be executed breaks the machine down. -/
  | broken {s : Session} {routine : Ident} {i : Instr} {why : Breakdown}
      (hlast : s.log.head? = some (.step routine i)) (h : Breaks i why) :
    SameEnd (.broken why) .crashed s

/-- The steps are used up: one more is no word. -/
def UsedUp (s : Session) : Prop := UInt64.size ≤ s.steps + 1

/-- **A transition shows a transition**, unless the steps are used up. -/
inductive Transition.Shows : Transition → Primer.Transition → Prop
  /-- Both come to a state. -/
  | next {g : Machine} {m : Primer.Machine} (h : g.Shows m) :
    Shows (.next g) (.next m)
  /-- Both come to an end. -/
  | halt {outcome : Outcome} {outcome' : Primer.Outcome} {s : Session}
      (h : SameEnd outcome outcome' s) :
    Shows (.halt outcome s) (.halt outcome' s)
  /-- The step cannot be counted. -/
  | usedUp {s : Session} {transition : Primer.Transition} (h : UsedUp s) :
    Shows (.halt (.broken .overflow) s) transition

/-- **The results of two runs agree**, unless the steps are used up. -/
inductive Agree : Option (Outcome × Session) →
    Option (Primer.Outcome × Session) → Prop
  /-- Both go on. -/
  | goesOn : Agree none none
  /-- Both come to an end. -/
  | halt {outcome : Outcome} {outcome' : Primer.Outcome} {s : Session}
      (h : SameEnd outcome outcome' s) :
    Agree (some (outcome, s)) (some (outcome', s))
  /-- There was a step that could not be counted. -/
  | usedUp {s : Session} {result : Option (Primer.Outcome × Session)}
      (h : UsedUp s) : Agree (some (.broken .overflow, s)) result

namespace Machine

variable {a : Assembly} {limit : Option Nat} {g : Frame} {f : Primer.Frame}
  {gs : List Frame} {fs : List Primer.Frame} {s : Session}

/-- **A call starts alike.** -/
theorem enter_shows {r : Routine} (hr : r.code.length < UInt64.size)
    (args : List Value) (hcallers : List.Forall₂ Frame.Shows gs fs) :
    (enter r args gs s).Shows (Primer.Machine.enter r args fs s) := by
  unfold enter Primer.Machine.enter
  split
  · exact .halt (.failed _)
  · have hframe : (Frame.enter r args).Shows (Primer.Frame.enter r args) :=
      { routine := rfl, rest := rfl, inside := Nat.zero_le _,
        addressable := hr, slots := rfl, arguments := Block.holds_empty,
        received := rfl, result := rfl }
    exact .next ⟨hframe, hcallers, rfl⟩

/-- **A call ends alike.** -/
theorem leave_shows (h : g.Shows f)
    (hcallers : List.Forall₂ Frame.Shows gs fs) :
    (leave g gs s).Shows (Primer.Machine.leave f fs s) := by
  cases hcallers with
  | nil => exact .halt .finished
  | cons hcaller hcallers =>
    exact .next ⟨{ hcaller with received := h.result }, hcallers, rfl⟩

variable (ha : ∀ r ∈ a.bodies, r.code.length < UInt64.size)

include ha

/-- **A call passes the same arguments.** -/
theorem call_shows (callee : Ident) (h : g.Shows f)
    (hcallers : List.Forall₂ Frame.Shows gs fs) :
    (call a callee g gs s).Shows (Primer.Machine.call a callee f fs s) := by
  have hcount : f.argumentCount = g.arguments.length :=
    eq_of_forall_ge_iff fun n => by
      rw [h.arguments.length_le, Primer.Frame.argumentCount, foldr_index_le]
      simp only [Store.get?_ne_none]
  have hvalues : collect f.arguments 0 f.argumentCount
      = g.arguments.values 0 := by
    rw [hcount]
    refine Block.collect_eq_values fun i => ?_
    rw [Nat.zero_add, h.arguments.get]
  unfold call Primer.Machine.call
  rw [hvalues]
  cases hroutine : a.routine? callee with
  | none => exact .halt (.failed _)
  | some routine =>
    cases g.arguments.values 0 with
    | error index => exact .halt (.failed _)
    | ok args =>
      have hmem : routine ∈ a.bodies :=
        List.mem_append_left _ (List.mem_of_find?_eq_some hroutine)
      exact enter_shows (ha routine hmem) args
        (.cons { h with arguments := Block.holds_empty } hcallers)

/-- **An instruction is performed alike**, if it is the last in the log. -/
theorem perform_shows {i : Instr} {routine : Ident}
    (hlast : s.log.head? = some (.step routine i)) (h : g.Shows f)
    (hcallers : List.Forall₂ Frame.Shows gs fs) :
    (perform a i g gs s).Shows (Primer.Machine.perform a i f fs s) := by
  by_cases hleave : i = .leave
  · subst hleave
    exact leave_shows h hcallers
  by_cases hcall : ∃ callee, i = .call callee
  · obtain ⟨callee, rfl⟩ := hcall
    exact call_shows ha callee h hcallers
  · have hcall := not_exists.mp hcall
    rw [perform.eq_3 a i g gs s hleave hcall,
      Primer.Machine.perform.eq_3 a i f fs s hleave hcall]
    have hmatches := matches_execute h a.symbols s i
    -- what both come to is all that matters, not how they are computed
    generalize execute a.symbols g s i = attempt at hmatches
    generalize i.execute a.symbols f s = execution at hmatches
    cases hmatches with
    | ok hshows => exact .next ⟨hshows.1, hcallers, hshows.2⟩
    | failed error => exact .halt (.failed error)
    | broken hbreaks => exact .halt (.broken hlast hbreaks)

/-- **One step is made alike**, unless the steps are used up. -/
theorem step_shows {g : Machine} {m : Primer.Machine} (h : g.Shows m) :
    (g.step a limit).Shows (m.step a limit) := by
  have hframe := h.frame
  unfold step Primer.Machine.step
  rcases Nat.lt_or_ge g.frame.position g.frame.routine.code.length with
    hlt | hge
  · have hrest : m.frame.rest = g.frame.routine.code[g.frame.position]
        :: g.frame.routine.code.drop (g.frame.position + 1) :=
      hframe.rest.trans (List.drop_eq_getElem_cons hlt)
    have hsum : sum g.frame.position 1 = .ok (g.frame.position + 1) :=
      if_pos (Nat.lt_of_le_of_lt hlt hframe.addressable)
    rw [List.getElem?_eq_getElem hlt, hrest, h.session]
    -- the position stays within the code, but the steps may be used up
    by_cases hsteps : g.session.steps + 1 < UInt64.size
    · have hsteps : sum g.session.steps 1 = .ok (g.session.steps + 1) :=
        if_pos hsteps
      simp only [hsum, hsteps, Session.countStep]
      cases Primer.Machine.exceeded? limit (g.session.steps + 1) with
      | some limit => exact .halt (.failed _)
      | none =>
        rw [hframe.name]
        exact perform_shows ha rfl
          { hframe with rest := rfl, inside := hlt } h.callers
    · have hbroken : sum g.session.steps 1 = breakDown .overflow :=
        if_neg hsteps
      simp only [hsum, hbroken]
      exact .usedUp (Nat.le_of_not_lt hsteps)
  · have hrest : m.frame.rest = [] :=
      hframe.rest.trans (List.drop_eq_nil_of_le hge)
    rw [List.getElem?_eq_none hge, hrest, h.session]
    exact leave_shows hframe h.callers

end Machine

/-- **What a breakdown comes of**, if the run agrees with another. -/
theorem Agree.of_broken {why : Breakdown} {s : Session}
    {result : Option (Primer.Outcome × Session)}
    (h : Agree (some (.broken why, s)) result) :
    UsedUp s ∨ why = .outOfMemory ∨ why = .overflow
      ∧ ∃ routine index src, index.toNat + 1 = UInt64.size
        ∧ s.log.head? = some (.step routine (.setArgument index src)) := by
  cases h with
  | usedUp hsteps => exact Or.inl hsteps
  | halt hend =>
    cases hend with
    | broken hlast hbreaks =>
      cases hbreaks with
      | outOfMemory => exact Or.inr (Or.inl rfl)
      | overflow hword => exact Or.inr (Or.inr ⟨rfl, _, _, _, hword, hlast⟩)

/-- **A run is followed alike** from transitions that show each other. -/
theorem follow_agree {a : Assembly} {limit : Option Nat}
    (ha : ∀ r ∈ a.bodies, r.code.length < UInt64.size) (horizon : Nat)
    {transition : Transition} {transition' : Primer.Transition}
    (h : transition.Shows transition') :
    Agree (transition.follow a limit horizon)
      (transition'.follow a limit horizon) := by
  induction horizon generalizing transition transition' with
  | zero =>
    cases h with
    | next => exact .goesOn
    | halt hend => exact .halt hend
    | usedUp hsteps => exact .usedUp hsteps
  | succ horizon ih =>
    cases h with
    | next hshows => exact ih (Machine.step_shows ha hshows)
    | halt hend => exact .halt hend
    | usedUp hsteps => exact .usedUp hsteps

end Concrete

namespace Assembly

/-- **A run in words and blocks agrees with the run**: it ends with the same
error, or without one, or it goes on, as long as the steps are not used up. If
the machine breaks down all the same, there was no memory for an argument, or
the instruction that was about to be executed sets an argument aside under the
greatest index, to which one cannot be added. -/
theorem runConcrete_agrees {a : Assembly}
    (ha : ∀ r ∈ a.bodies, r.code.length < UInt64.size) (limit : Option Nat)
    (horizon : Nat) (s : Session) :
    Agree (a.runConcrete limit horizon s) (a.run limit horizon s)
      ∧ ∀ why s', a.runConcrete limit horizon s = some (.broken why, s') →
        UsedUp s' ∨ why = .outOfMemory ∨ why = .overflow
          ∧ ∃ routine index src, index.toNat + 1 = UInt64.size
            ∧ s'.log.head? = some (.step routine (.setArgument index src)) := by
  have hmain : a.main ∈ a.bodies := List.mem_append_right _ List.mem_cons_self
  have hagree : Agree (a.runConcrete limit horizon s) (a.run limit horizon s) :=
    follow_agree ha horizon (Machine.enter_shows (ha a.main hmain) [] .nil)
  exact ⟨hagree, fun why s' h => (h ▸ hagree).of_broken⟩

/-- Both runs of the code that sets two arguments aside end without an error.
-/
theorem runConcrete_agrees_pairing : ∃ s,
    Machine.pairing.runConcrete none 9 (.fresh []) = some (.finished, s)
      ∧ Machine.pairing.run none 9 (.fresh []) = some (.finished, s) := by
  obtain ⟨s, hrun⟩ : ∃ s,
      Machine.pairing.runConcrete none 9 (.fresh []) = some (.finished, s) :=
    ⟨_, rfl⟩
  have hagree :=
    (runConcrete_agrees (a := Machine.pairing) (by decide) none 9 (.fresh [])).1
  refine ⟨s, hrun, ?_⟩
  rw [hrun] at hagree
  generalize Machine.pairing.run none 9 (.fresh []) = result at hagree ⊢
  cases hagree with
  | halt hend =>
    cases hend
    rfl

/-- Code that sets an argument aside under the greatest index. -/
def overreaching : Assembly where
  routines := []
  main := ⟨⟨"main", [], .unit, .nested 0⟩,
    [.set "a" 1, .setArgument 18446744073709551615 "a", .printInt "a"]⟩
  symbols := .empty

/-- **The machine breaks down at the greatest index**, in its second step. -/
theorem overreaching_breaks_down :
    (∀ r ∈ overreaching.bodies, r.code.length < UInt64.size) ∧ ∃ s,
      overreaching.runConcrete none 3 (.fresh []) = some (.broken .overflow, s)
        ∧ overreaching.run none 3 (.fresh []) = some (.crashed, s)
        ∧ s.steps = 2 :=
  ⟨by decide, _, rfl, rfl, rfl⟩

end Assembly

end Primer
