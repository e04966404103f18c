import Mathlib.Data.Nat.Find
import Primer.Proofs.Machine.Control

/-!
# What a call passes

The arguments of a call are set aside one by one, in any order, some of them
more than once and some perhaps not at all. Between the first of them and the
call there may be jumps and loops. What the call passes then is a matter of
the past: for each index, the value that was set aside for it last, in the
frame that calls and since its previous call.

So a run is followed here together with the states that it came through
(`Machine.ComesThrough`), and `passedSince` looks back over them. The store in
the frame agrees with it in every state (`Machine.Remembers`): one step
preserves that, and a call hands over all of it and forgets it. What a call
does is `Machine.ComesThrough.call_passes`.
-/

namespace Primer

/-! ## Looking back -/

/-- **A run and the states that it came through**, the latest first. -/
inductive Machine.ComesThrough (a : Assembly) (limit : Option Nat) :
    List Machine → Machine → Prop
  /-- The main routine is called. -/
  | start {session : Session} {m : Machine}
      (h : Machine.enter a.main [] [] session = .next m) :
    ComesThrough a limit [] m
  /-- One more step. -/
  | step {earlier : List Machine} {m m' : Machine}
      (h : ComesThrough a limit earlier m)
      (hstep : m.step a limit = .next m') :
    ComesThrough a limit (m :: earlier) m'

/-- Every state that a run comes to has states that it came through. -/
theorem Machine.Reachable.exists_comesThrough {a : Assembly}
    {limit : Option Nat} {m : Machine} (h : m.Reachable a limit) :
    ∃ earlier, m.ComesThrough a limit earlier := by
  induction h with
  | start henter => exact ⟨[], .start henter⟩
  | step _ hstep ih =>
    obtain ⟨earlier, hearlier⟩ := ih
    exact ⟨_, hearlier.step hstep⟩

/-- **Values that were set aside**, each with its index, the latest first. -/
abbrev Passed := List (Nat × Value)

namespace Passed

/-- The value that was set aside last for an index. -/
def value? (passed : Passed) (index : Nat) : Option Value :=
  passed.lookup index

/-- One more than the greatest index. -/
def count (passed : Passed) : Nat :=
  (passed.map Prod.fst).foldr (fun index count => max (index + 1) count) 0

end Passed

/-- What an instruction sets aside, given the values of the places. -/
def Instr.passes (slots : Store Slot) : Instr → Passed
  | setArgument index src =>
    ((slots.get? src).map (index.toNat, ·)).toList
  | _ => []

/-- **What a frame has set aside** since its last call, or else since its
start. The frame is the one that has `depth` others below it, and the states
are those that the run came through. -/
def passedSince (depth : Nat) : List Machine → Passed
  | [] => []
  | m :: earlier =>
    -- a state with more frames belongs to a call that the frame has made
    if depth < m.callers.length then passedSince depth earlier
    -- and one with fewer was there before the frame
    else if m.callers.length < depth then []
    else
      match m.frame.rest with
      | .call _ :: _ => []
      | i :: _ => i.passes m.frame.slots ++ passedSince depth earlier
      | [] => passedSince depth earlier

section passedSince

variable {depth : Nat} {m : Machine} {earlier : List Machine}

theorem passedSince_of_lt (h : depth < m.callers.length) :
    passedSince depth (m :: earlier) = passedSince depth earlier := if_pos h

theorem passedSince_of_gt (h : m.callers.length < depth) :
    passedSince depth (m :: earlier) = [] :=
  (if_neg (Nat.lt_asymm h)).trans (if_pos h)

theorem passedSince_call {callee : Ident} {rest : Code}
    (h : m.frame.rest = .call callee :: rest) :
    passedSince m.callers.length (m :: earlier) = [] := by
  rw [passedSince, if_neg (Nat.lt_irrefl _), if_neg (Nat.lt_irrefl _), h]

/-- Any other instruction of the frame adds what it sets aside. -/
theorem passedSince_of_ne_call {i : Instr} {rest : Code}
    (h : m.frame.rest = i :: rest) (hi : ∀ callee, i ≠ .call callee) :
    passedSince m.callers.length (m :: earlier)
      = i.passes m.frame.slots ++ passedSince m.callers.length earlier := by
  rw [passedSince, if_neg (Nat.lt_irrefl _), if_neg (Nat.lt_irrefl _), h]
  split
  · next heq => exact absurd (List.cons.inj heq).1 (hi _)
  · next heq => rw [(List.cons.inj heq).1]
  · next heq => cases heq

end passedSince

/-! ## Stores of arguments -/

namespace Store

variable {κ : Type} [DecidableEq κ]

/-- A key has a value if it is one of the keys. -/
theorem get?_ne_none {s : Store κ} {key : κ} :
    s.get? key ≠ none ↔ key ∈ s.keys := by
  unfold get? keys
  induction s.entries with
  | nil => exact ⟨fun h => absurd rfl h, nofun⟩
  | cons entry rest ih =>
    rw [find, List.map_cons, List.mem_cons]
    split
    · next h => exact iff_of_true (Option.some_ne_none _) (Or.inl h.symm)
    · next h => exact ih.trans (or_iff_right fun heq => h heq.symm).symm

/-- Setting other keys leaves a key alone. -/
theorem get?_foldl_set_of_notMem {key : κ} {keys : List κ}
    (h : key ∉ keys) (values : List Value) (s : Store κ) :
    ((keys.zip values).foldl (fun s b => s.set b.1 b.2) s).get? key
      = s.get? key := by
  induction keys generalizing values s with
  | nil => rfl
  | cons k keys ih =>
    cases values with
    | nil => rfl
    | cons v values =>
      obtain ⟨hk, hkeys⟩ := not_or.mp (mt List.mem_cons.mpr h)
      exact (ih hkeys values _).trans (get?_set_of_ne s v (Ne.symm hk))

/-- **Keys that are set one after the other** have the values with their
numbers, if they are different keys. -/
theorem get?_foldl_set {keys : List κ} (h : keys.Nodup) {values : List Value}
    (hlength : keys.length ≤ values.length) {i : Nat} {key : κ}
    (hkey : keys[i]? = some key) (s : Store κ) :
    ((keys.zip values).foldl (fun s b => s.set b.1 b.2) s).get? key
      = values[i]? := by
  induction keys generalizing values s i with
  | nil => cases hkey
  | cons k keys ih =>
    obtain ⟨hk, hkeys⟩ := List.nodup_cons.mp h
    cases values with
    | nil => cases hlength
    | cons v values =>
      cases i with
      | zero =>
        cases hkey
        exact (get?_foldl_set_of_notMem hk values _).trans
          (get?_set_self s _ v)
      | succ i => exact ih hkeys (Nat.le_of_succ_le_succ hlength) hkey _

end Store

/-- What is above all indices. -/
theorem foldr_index_le {indices : List Nat} {n : Nat} :
    indices.foldr (fun index count => max (index + 1) count) 0 ≤ n
      ↔ ∀ index ∈ indices, index < n := by
  induction indices with
  | nil => simp
  | cons index indices ih =>
    rw [List.foldr_cons, Nat.max_le, ih, List.forall_mem_cons,
      Nat.succ_le_iff]

theorem Passed.value?_ne_none {passed : Passed} {index : Nat} :
    passed.value? index ≠ none ↔ index ∈ passed.map Prod.fst := by
  rw [value?, Ne, List.lookup_eq_none_iff, List.mem_map]
  simp only [bne_iff_ne, not_forall, not_not, ne_eq, exists_prop]
  exact exists_congr fun arg => and_congr_right fun _ => eq_comm

theorem Passed.lt_count {passed : Passed} {index : Nat}
    (h : passed.value? index ≠ none) : index < passed.count :=
  foldr_index_le.mp (Nat.le_refl _) index (value?_ne_none.mp h)

/-- A frame counts the arguments that were set aside. -/
theorem Frame.argumentCount_eq {f : Frame} {passed : Passed}
    (h : ∀ i, f.arguments.get? i = passed.value? i) :
    f.argumentCount = passed.count := by
  have hle : ∀ n, f.argumentCount ≤ n ↔ passed.count ≤ n := fun n => by
    rw [argumentCount, Passed.count, foldr_index_le, foldr_index_le]
    simp only [← Store.get?_ne_none, ← Passed.value?_ne_none, h]
  exact Nat.le_antisymm ((hle _).mpr (Nat.le_refl _))
    ((hle _).mp (Nat.le_refl _))

/-- Collecting stops at the first gap. -/
theorem collect_eq_error {s : Store Nat} {index count gap : Nat}
    (hle : index ≤ gap) (hlt : gap < index + count)
    (hgap : s.get? gap = none)
    (hfirst : ∀ j, index ≤ j → j < gap → s.get? j ≠ none) :
    collect s index count = .error gap := by
  induction count generalizing index with
  | zero => exact absurd hlt (Nat.not_lt.mpr hle)
  | succ count ih =>
    rw [collect]
    cases hvalue : s.get? index with
    | none =>
      -- a gap at `index` is the first one
      have heq : gap = index := Nat.le_antisymm (Nat.le_of_not_lt fun hlt =>
        hfirst index (Nat.le_refl _) hlt hvalue) hle
      rw [heq]
    | some v =>
      have hne : index ≠ gap := by
        rintro rfl
        exact nomatch hvalue.symm.trans hgap
      have hcollect := @ih (index + 1) (by omega) (by omega)
        fun j hj => hfirst j (by omega)
      simp only [hcollect]
      rfl

/-- **Without a gap all values are collected.** -/
theorem collect_eq_ok {s : Store Nat} {index count : Nat}
    (h : ∀ j, index ≤ j → j < index + count → s.get? j ≠ none) :
    ∃ values, collect s index count = .ok values ∧ values.length = count
      ∧ ∀ j < count, values[j]? = s.get? (index + j) := by
  induction count generalizing index with
  | zero => exact ⟨[], rfl, rfl, nofun⟩
  | succ count ih =>
    obtain ⟨v, hv⟩ :=
      Option.ne_none_iff_exists'.mp (h index (Nat.le_refl _) (by omega))
    obtain ⟨values, hvalues, hlength, hget⟩ :=
      @ih (index + 1) fun j hj => h j (by omega) ∘ by omega
    refine ⟨v :: values, ?_, congrArg Nat.succ hlength, ?_⟩
    · rw [collect, hv]
      simp only [hvalues]
      rfl
    · rintro (_ | j) hj
      · exact hv.symm
      · have hnext : index + (j + 1) = index + 1 + j := by omega
        rw [List.getElem?_cons_succ, hnext]
        exact hget j (Nat.lt_of_succ_lt_succ hj)

namespace Frame

variable {f : Frame} {passed : Passed}

theorem collect_eq_error (h : ∀ i, f.arguments.get? i = passed.value? i)
    {i : Nat} (hi : i < passed.count) (hnone : passed.value? i = none)
    (hfirst : ∀ j < i, passed.value? j ≠ none) :
    collect f.arguments 0 f.argumentCount = .error i := by
  rw [f.argumentCount_eq h]
  exact Primer.collect_eq_error (Nat.zero_le _) (by omega)
    ((h i).trans hnone) fun j _ hj => (h j).symm ▸ hfirst j hj

/-- **A frame collects what was set aside**, if there is no gap. -/
theorem collect_eq_ok (h : ∀ i, f.arguments.get? i = passed.value? i)
    (hall : ∀ i < passed.count, passed.value? i ≠ none) :
    ∃ args, collect f.arguments 0 f.argumentCount = .ok args
      ∧ args.length = passed.count
      ∧ ∀ i : Nat, args[i]? = passed.value? i := by
  have hfull : ∀ j, 0 ≤ j → j < 0 + passed.count →
      f.arguments.get? j ≠ none := fun j _ hj => by
    rw [h]
    exact hall j (by omega)
  obtain ⟨args, hargs, hlength, hvalues⟩ := Primer.collect_eq_ok hfull
  refine ⟨args, f.argumentCount_eq h ▸ hargs, hlength, fun i => ?_⟩
  by_cases hi : i < passed.count
  · rw [hvalues i hi, h, Nat.zero_add]
  · -- there is nothing above the greatest index
    rw [List.getElem?_eq_none (by omega)]
    exact (not_not.mp (mt Passed.lt_count hi)).symm

end Frame

/-! ## What the frames remember -/

/-- **The frames remember what was set aside**: the one that is executed has
all of it in its store, and none of those that wait has any. -/
structure Machine.Remembers (m : Machine) (earlier : List Machine) :
    Prop where
  /-- The store has what was set aside. -/
  frame : ∀ i, m.frame.arguments.get? i
    = (passedSince m.callers.length earlier).value? i
  /-- The stores of the frames that wait are empty. -/
  callers : ∀ f ∈ m.callers, f.arguments = .empty
  /-- These frames have set nothing aside since they called. -/
  waiting : ∀ depth < m.callers.length, passedSince depth earlier = []

/-- **An instruction sets aside what it passes**, and nothing else. -/
theorem Instr.execute_arguments {i : Instr} {symbols : SymbolTable}
    {f f' : Frame} {s s' : Session}
    (h : i.execute symbols f s = .ok (f', s')) (index : Nat) :
    f'.arguments.get? index
      = (Passed.value? (i.passes f.slots) index).or
        (f.arguments.get? index) := by
  cases i with
  | label | enter | nop | leave | call | set =>
    cases pure_eq_ok.mp h
    rfl
  | move | fetchResult | setResult | loadString | printInt | printString
  | intToStr =>
    obtain ⟨_, -, h⟩ := bind_eq_ok.mp h
    cases pure_eq_ok.mp h
    rfl
  | strToInt =>
    obtain ⟨_, -, h⟩ := bind_eq_ok.mp h
    obtain ⟨_, -, h⟩ := bind_eq_ok.mp h
    cases pure_eq_ok.mp h
    rfl
  | arith =>
    obtain ⟨_, -, h⟩ := bind_eq_ok.mp h
    obtain ⟨_, -, h⟩ := bind_eq_ok.mp h
    obtain ⟨_, -, h⟩ := bind_eq_ok.mp h
    cases pure_eq_ok.mp h
    rfl
  | readInt =>
    rw [execute] at h
    split at h
    · cases h
    · cases pure_eq_ok.mp h
      rfl
  | jump =>
    obtain ⟨_, hgo, h⟩ := bind_eq_ok.mp h
    cases pure_eq_ok.mp h
    obtain ⟨_, -, rfl⟩ := Frame.goTo_eq_ok.mp hgo
    rfl
  | branchCompare =>
    obtain ⟨_, -, h⟩ := bind_eq_ok.mp h
    obtain ⟨_, -, h⟩ := bind_eq_ok.mp h
    obtain ⟨_, -, h⟩ := bind_eq_ok.mp h
    obtain ⟨_, hgo, h⟩ := bind_eq_ok.mp h
    cases pure_eq_ok.mp h
    obtain ⟨_, -, rfl⟩ := Frame.goTo_eq_ok.mp hgo
    rfl
  | branchZero =>
    obtain ⟨_, -, h⟩ := bind_eq_ok.mp h
    obtain ⟨_, hgo, h⟩ := bind_eq_ok.mp h
    cases pure_eq_ok.mp h
    obtain ⟨_, -, rfl⟩ := Frame.goTo_eq_ok.mp hgo
    rfl
  | setArgument key src =>
    obtain ⟨v, hv, h⟩ := bind_eq_ok.mp h
    split at h
    · cases pure_eq_ok.mp h
      rw [passes, orFail_eq_ok.mp hv]
      show (f.arguments.set key.toNat v).get? index
        = (List.lookup index [(key.toNat, v)]).or (f.arguments.get? index)
      by_cases heq : index = key.toNat
      · rw [heq, Store.get?_set_self, List.lookup_cons_self]
        rfl
      · rw [Store.get?_set_of_ne _ _ (Ne.symm heq), List.lookup_cons,
          beq_false_of_ne heq]
        rfl
    · cases h

namespace Machine

variable {a : Assembly} {limit : Option Nat} {m m' : Machine}
variable {earlier : List Machine}

/-- When a call ends, its caller has set nothing aside yet. -/
theorem Remembers.leave (h : m.Remembers earlier) {f : Frame} {s : Session}
    (hleave : Machine.leave f m.callers s = .next m') :
    m'.Remembers (m :: earlier) := by
  obtain ⟨caller, hcallers, hframe⟩ := leave_eq_next hleave
  obtain ⟨hcaller, hrest⟩ := List.forall_mem_cons.mp (hcallers ▸ h.callers)
  have hlength : m'.callers.length + 1 = m.callers.length :=
    (congrArg List.length hcallers).symm
  have hnone : ∀ depth ≤ m'.callers.length,
      passedSince depth (m :: earlier) = [] := fun depth hdepth =>
    (passedSince_of_lt (by omega)).trans (h.waiting depth (by omega))
  exact {
    frame := fun i => by
      rw [hframe, hnone _ (Nat.le_refl _)]
      exact congrArg (Store.get? · i) hcaller
    callers := hrest
    waiting := fun depth hdepth => hnone depth (Nat.le_of_lt hdepth) }

/-- A call starts with nothing set aside, and leaves nothing behind. -/
theorem Remembers.of_call (h : m.Remembers earlier) {callee : Ident}
    {rest : Code} (hrest : m.frame.rest = .call callee :: rest) {f : Frame}
    {s : Session} (hcall : Machine.call a callee f m.callers s = .next m') :
    m'.Remembers (m :: earlier) := by
  obtain ⟨r, args, -, -, hframe, hcallers⟩ := call_eq_next hcall
  have hlength : m'.callers.length = m.callers.length + 1 :=
    congrArg List.length hcallers
  exact {
    frame := fun i => by
      rw [hframe, passedSince_of_gt (by omega)]
      rfl
    callers := by
      rw [hcallers]
      exact List.forall_mem_cons.mpr ⟨rfl, h.callers⟩
    waiting := fun depth hdepth => by
      rcases Nat.lt_or_eq_of_le (Nat.le_of_lt_succ (hlength ▸ hdepth))
        with hlt | rfl
      · exact (passedSince_of_lt hlt).trans (h.waiting depth hlt)
      · exact passedSince_call hrest }

/-- Any other instruction sets aside what it passes. -/
theorem Remembers.execute (h : m.Remembers earlier) {i : Instr} {rest : Code}
    (hrest : m.frame.rest = i :: rest) (hi : ∀ callee, i ≠ .call callee)
    {s s' : Session} (hexecute : i.execute a.symbols
      { m.frame with rest := rest } s = .ok (m'.frame, s'))
    (hcallers : m'.callers = m.callers) : m'.Remembers (m :: earlier) where
  frame index := by
    rw [hcallers, passedSince_of_ne_call hrest hi,
      Instr.execute_arguments hexecute, Passed.value?, Passed.value?,
      List.lookup_append]
    exact congrArg (Option.or _) (h.frame index)
  callers := hcallers ▸ h.callers
  waiting depth hdepth :=
    have hlt : depth < m.callers.length := hcallers ▸ hdepth
    (passedSince_of_lt hlt).trans (h.waiting depth hlt)

/-- **One step keeps the memory of the frames.** -/
theorem Remembers.step (h : m.Remembers earlier)
    (hstep : m.step a limit = .next m') : m'.Remembers (m :: earlier) := by
  cases hrest : m.frame.rest with
  | nil =>
    rw [Machine.step, hrest] at hstep
    exact h.leave hstep
  | cons i rest =>
    have hperform := step_eq_next hrest hstep
    -- only `leave` and `call` change what frames there are
    by_cases hleave : i = .leave
    · subst hleave
      exact h.leave hperform
    · by_cases hcall : ∃ callee, i = .call callee
      · obtain ⟨callee, rfl⟩ := hcall
        exact h.of_call hrest hperform
      · obtain ⟨hexecute, hcallers⟩ :=
          perform_eq_next hleave (not_exists.mp hcall) hperform
        exact h.execute hrest (not_exists.mp hcall) hexecute hcallers

/-- **In every state of every run the frames remember** what was set aside.
-/
theorem ComesThrough.remembers (h : m.ComesThrough a limit earlier) :
    m.Remembers earlier := by
  induction h with
  | start henter =>
    obtain ⟨hframe, hcallers⟩ := enter_eq_next henter
    exact {
      frame := fun i => by
        rw [hframe]
        rfl
      callers := by
        rw [hcallers]
        exact nofun
      waiting := fun _ _ => rfl }
  | step _ hstep ih => exact ih.step hstep

/-! ## The call -/

/-- **A call of a routine starts** with what was passed. -/
structure Starts (m : Machine) (callee : Ident) (rest : Code) (r : Routine)
    (passed : Passed) (m' : Machine) : Prop where
  /-- The routine is executed, from its beginning. -/
  routine : m'.frame.routine = r ∧ m'.frame.rest = r.code
  /-- Its parameters hold what was passed under their numbers. -/
  params : ∀ i x ty, r.prototype.params[i]? = some (x, ty) →
    m'.frame.slots.get? x = passed.value? i
  /-- No other place holds anything. -/
  others : ∀ x, x ∉ r.prototype.params.map Prod.fst →
    m'.frame.slots.get? x = none
  /-- The call is entered in the log with everything that was passed. -/
  log : ∃ args, args.length = passed.count
    ∧ (∀ i : Nat, args[i]? = passed.value? i)
    ∧ m'.session.log = .call callee args
      :: .step m.frame.name (.call callee) :: m.session.log
  /-- Nothing has been set aside in the new frame. -/
  arguments : m'.frame.arguments = .empty
  /-- The frame that called waits, and has nothing set aside any more. -/
  callers : m'.callers
    = { m.frame with rest := rest, arguments := .empty } :: m.callers

section Call

variable {f : Frame} {passed : Passed} {callee : Ident} {r : Routine}

theorem name_of_routine? (hr : a.routine? callee = some r) :
    r.name = callee := by
  have hfound := List.find?_some hr
  exact eq_of_beq hfound

/-- **A call fails at the first gap**, be it among the arguments or above all
of them. -/
theorem call_of_gap (h : ∀ i, f.arguments.get? i = passed.value? i)
    (hr : a.routine? callee = some r) {i : Nat}
    (hlt : i < max passed.count r.prototype.params.length)
    (hnone : passed.value? i = none)
    (hfirst : ∀ j < i, passed.value? j ≠ none) (callers : List Frame)
    (s : Session) :
    ∃ s', Machine.call a callee f callers s
      = .halt (.failed (.missingArgument i callee)) s' := by
  have hname := name_of_routine? hr
  by_cases hi : i < passed.count
  · refine ⟨s, ?_⟩
    rw [Machine.call, hr]
    simp only [Frame.collect_eq_error h hi hnone hfirst, hname]
  · -- then the gap is the number of the arguments
    have heq : i = passed.count := Nat.le_antisymm
      (Nat.le_of_not_lt fun hgt => Nat.lt_irrefl _
        (Passed.lt_count (hfirst _ hgt))) (Nat.le_of_not_lt hi)
    obtain ⟨args, hargs, hlength, -⟩ :=
      Frame.collect_eq_ok h fun j hj => hfirst j (by omega)
    have hfew : args.length < r.prototype.params.length := by omega
    refine ⟨s.record (.call r.name args), ?_⟩
    rw [Machine.call, hr]
    simp only [hargs]
    rw [Machine.enter, if_pos hfew, hname, hlength, ← heq]

/-- **A call without a gap enters the routine** with all that was passed. -/
theorem call_of_all (h : ∀ i, f.arguments.get? i = passed.value? i)
    (hr : a.routine? callee = some r)
    (hall : ∀ i < max passed.count r.prototype.params.length,
      passed.value? i ≠ none) (callers : List Frame) (s : Session) :
    ∃ args : List Value, Machine.call a callee f callers s
        = .next ⟨.enter r args, { f with arguments := .empty } :: callers,
          s.record (.call callee args)⟩
      ∧ args.length = passed.count
      ∧ (∀ i : Nat, args[i]? = passed.value? i)
      ∧ r.prototype.params.length ≤ args.length := by
  obtain ⟨args, hargs, hlength, hvalues⟩ :=
    Frame.collect_eq_ok h fun j hj => hall j (by omega)
  have hmany : r.prototype.params.length ≤ args.length := by
    refine Nat.le_of_not_lt fun hlt => hall args.length (by omega) ?_
    rw [← hvalues, List.getElem?_eq_none (Nat.le_refl _)]
  refine ⟨args, ?_, hlength, hvalues, hmany⟩
  rw [Machine.call, hr, ← name_of_routine? hr]
  simp only [hargs]
  exact if_neg (Nat.not_lt.mpr hmany)

end Call

/-- What a call does, given what the frame remembers. -/
theorem Remembers.call (h : m.Remembers earlier) {callee : Ident}
    (rest : Code) {r : Routine} (hr : a.routine? callee = some r)
    (hnames : (r.prototype.params.map Prod.fst).Nodup) (s : Session)
    (hs : s.log = .step m.frame.name (.call callee) :: m.session.log) :
    let passed := passedSince m.callers.length earlier
    let needed := max passed.count r.prototype.params.length
    let f := { m.frame with rest := rest }
    ((∃ i < needed, passed.value? i = none) →
      ∃ i < needed, passed.value? i = none
        ∧ (∀ j < i, passed.value? j ≠ none)
        ∧ ∃ s', Machine.call a callee f m.callers s
          = .halt (.failed (.missingArgument i callee)) s')
    ∧ ((∀ i < needed, passed.value? i ≠ none) →
      ∃ m', Machine.call a callee f m.callers s = .next m'
        ∧ m.Starts callee rest r passed m') := by
  intro passed needed f
  have hget : ∀ i, f.arguments.get? i = passed.value? i := h.frame
  constructor
  · intro hex
    classical
    obtain ⟨hlt, hnone⟩ := Nat.find_spec hex
    have hfirst : ∀ j < Nat.find hex, passed.value? j ≠ none :=
      fun j hj heq => Nat.find_min hex hj ⟨Nat.lt_trans hj hlt, heq⟩
    exact ⟨_, hlt, hnone, hfirst, call_of_gap hget hr hlt hnone hfirst _ s⟩
  · intro hall
    obtain ⟨args, hcall, hlength, hvalues, hmany⟩ :=
      call_of_all hget hr hall m.callers s
    refine ⟨_, hcall, ?_⟩
    exact {
      routine := ⟨rfl, rfl⟩
      params := fun i x ty hi => by
        rw [← hvalues]
        refine Store.get?_foldl_set hnames (by simpa using hmany) ?_ .empty
        rw [List.getElem?_map, hi]
        rfl
      others := fun x hx => Store.get?_foldl_set_of_notMem hx args .empty
      log := ⟨args, hlength, hvalues, by rw [← hs]; rfl⟩
      arguments := rfl
      callers := rfl }

/-- **What a call passes.** Look back from a call of a routine with `k`
parameters of different names: a value was passed under an index if it is the
last that the frame has set aside for it since its previous call. If an index
below `k`, or below one more than the greatest index, has no value, the run
fails and reports the first such index. Otherwise the routine starts with its
parameters holding the values of their numbers, while no other place holds
anything; the log shows all values; and neither the frame that called nor the
new one has anything set aside from then on. -/
theorem ComesThrough.call_passes (h : m.ComesThrough a limit earlier)
    {callee : Ident} {rest : Code}
    (hrest : m.frame.rest = .call callee :: rest)
    (hlimit : exceeded? limit (m.session.steps + 1) = none) {r : Routine}
    (hr : a.routine? callee = some r)
    (hnames : (r.prototype.params.map Prod.fst).Nodup) :
    let passed := passedSince m.callers.length earlier
    let needed := max passed.count r.prototype.params.length
    ((∃ i < needed, passed.value? i = none) →
      ∃ i < needed, passed.value? i = none
        ∧ (∀ j < i, passed.value? j ≠ none)
        ∧ ∃ s, m.step a limit
          = .halt (.failed (.missingArgument i callee)) s)
    ∧ ((∀ i < needed, passed.value? i ≠ none) →
      ∃ m', m.step a limit = .next m' ∧ m.Starts callee rest r passed m'
        ∧ passedSince m.callers.length (m :: earlier) = []
        ∧ passedSince m'.callers.length (m :: earlier) = []) := by
  intro passed needed
  have hstep : m.step a limit = Machine.call a callee
      { m.frame with rest := rest } m.callers
      (m.session.countStep.record (.step m.frame.name (.call callee))) := by
    rw [Machine.step, hrest]
    simp only
    rw [show m.session.countStep.steps = m.session.steps + 1 from rfl, hlimit]
    rfl
  rw [hstep]
  obtain ⟨hfails, hstarts⟩ :=
    h.remembers.call rest hr hnames
      (m.session.countStep.record (.step m.frame.name (.call callee))) rfl
  refine ⟨hfails, fun hall => ?_⟩
  obtain ⟨m', hm', hm⟩ := hstarts hall
  refine ⟨m', hm', hm, passedSince_call hrest, passedSince_of_gt ?_⟩
  rw [hm.callers]
  exact Nat.lt_succ_self _

/-- A state, with those that the run came through, some steps later. -/
def later? (a : Assembly) (limit : Option Nat) :
    Nat → List Machine × Machine → Option (List Machine × Machine)
  | 0, w => some w
  | n + 1, (earlier, m) =>
    match m.step a limit with
    | .next m' => later? a limit n (m :: earlier, m')
    | .halt _ _ => none

/-- Some steps later the run came through the states in between. -/
theorem ComesThrough.later (h : m.ComesThrough a limit earlier) {n : Nat}
    {w : List Machine × Machine}
    (hlater : later? a limit n (earlier, m) = some w) :
    w.2.ComesThrough a limit w.1 := by
  induction n generalizing earlier m with
  | zero => exact Option.some.inj hlater ▸ h
  | succ n ih =>
    rw [later?] at hlater
    split at hlater
    · next hstep => exact ih (h.step hstep) hlater
    · cases hlater

/-- Code that sets aside the second argument first, and the first one twice.
-/
def pairing : Assembly where
  routines := [⟨⟨"pair", [("a", .int), ("b", .int)], .unit, .nested 0⟩,
    [.leave]⟩]
  main := ⟨⟨"main", [], .unit, .nested 1⟩,
    [.set "x" 1, .set "y" 2, .setArgument 1 "x", .setArgument 0 "x",
      .setArgument 0 "y", .call "pair", .leave]⟩
  symbols := .empty

/-- The value that was set aside last is the one that is passed. -/
theorem ComesThrough.call_passes_pairing : ∃ (earlier : List Machine)
    (m m' : Machine), m.ComesThrough pairing none earlier
      ∧ m.frame.rest = [.call "pair", .leave]
      ∧ m.step pairing none = .next m'
      ∧ m'.frame.slots.get? "a" = some (.int 2)
      ∧ m'.frame.slots.get? "b" = some (.int 1) := by
  let m₀ : Machine :=
    ⟨.enter pairing.main [], [], (Session.fresh []).record (.call "main" [])⟩
  have hlater : (later? pairing none 5 ([], m₀)).map (fun w =>
      (w.2.frame.rest, passedSince w.2.callers.length w.1))
        = some ([.call "pair", .leave],
          [(0, .int 2), (0, .int 1), (1, .int 1)]) := by decide
  obtain ⟨⟨earlier, m⟩, hw, heq⟩ := Option.map_eq_some_iff.mp hlater
  obtain ⟨hrest, hpassed⟩ := Prod.mk.inj heq
  have hthrough : m.ComesThrough pairing none earlier :=
    ComesThrough.later (.start (m := m₀) rfl) hw
  obtain ⟨-, hstarts⟩ :=
    hthrough.call_passes hrest rfl (r := pairing.routines.head (by decide)) rfl
      (by decide)
  simp only at hpassed
  rw [hpassed] at hstarts
  obtain ⟨m', hstep, hm, -⟩ := hstarts (by decide)
  exact ⟨earlier, m, m', hthrough, hrest, hstep, hm.params 0 "a" .int rfl,
    hm.params 1 "b" .int rfl⟩

end Machine

end Primer
