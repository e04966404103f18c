import Primer.Proofs.Machine.Instructions

/-!
# Calls

A call takes three things: the arguments are set aside one by one, the callee
executes its body in a frame of its own, and its end hands the result back.
`Frame.Runs.call` says what becomes of the run of the caller once the
arguments have been set aside.

The arguments that have been set aside are always numbered from 0 without a
gap (`Store.numbered`), so the callee gets all of them.
-/

namespace Primer

/-! ## Numbered stores -/

namespace Store

/-- Values under successive indices. -/
def numberedFrom (index : Nat) : List Value → List (Nat × Value)
  | [] => []
  | v :: values => (index, v) :: numberedFrom (index + 1) values

/-- **Values numbered from 0.** -/
def numbered (values : List Value) : Store Nat := ⟨numberedFrom 0 values⟩

/-- A value under the next index comes last. -/
theorem replace_numberedFrom (index : Nat) (values : List Value) (v : Value) :
    replace (index + values.length) v (numberedFrom index values)
      = numberedFrom index (values ++ [v]) := by
  induction values generalizing index with
  | nil => rfl
  | cons u values ih =>
    have hne : index ≠ index + (u :: values).length := by simp
    have hnext : index + (u :: values).length
        = index + 1 + values.length := by
      rw [List.length_cons]
      omega
    rw [numberedFrom, replace, if_neg hne, hnext, ih]
    rfl

/-- **One more value under the next index.** -/
theorem set_numbered (values : List Value) (v : Value) :
    (numbered values).set values.length v = numbered (values ++ [v]) := by
  have h := replace_numberedFrom 0 values v
  rw [Nat.zero_add] at h
  exact congrArg Store.mk h

/-- What is found under an index. -/
theorem find_numberedFrom (index i : Nat) (values : List Value) :
    find (index + i) (numberedFrom index values) = values[i]? := by
  induction values generalizing index i with
  | nil => rfl
  | cons v values ih =>
    rw [numberedFrom, find]
    cases i with
    | zero => exact if_pos rfl
    | succ i =>
      have hne : index ≠ index + (i + 1) := by omega
      have hnext : index + (i + 1) = index + 1 + i := by omega
      rw [if_neg hne, hnext, ih]
      rfl

theorem get?_numbered (i : Nat) (values : List Value) :
    (numbered values).get? i = values[i]? := by
  have h := find_numberedFrom 0 i values
  rw [Nat.zero_add] at h
  exact h

/-- One more than the greatest of successive indices. -/
theorem foldr_numberedFrom (index : Nat) (values : List Value) :
    ((numberedFrom index values).map Prod.fst).foldr
        (fun index count => max (index + 1) count) 0
      = if values = [] then 0 else index + values.length := by
  induction values generalizing index with
  | nil => rfl
  | cons v values ih =>
    rw [numberedFrom, List.map_cons, List.foldr_cons, ih,
      if_neg (List.cons_ne_nil _ _), List.length_cons]
    split
    · next hnil =>
      rw [hnil]
      exact Nat.max_eq_left (Nat.zero_le _)
    · omega

end Store

/-- Numbered values are collected from any of them on. -/
theorem collect_numbered {values : List Value} {index count : Nat}
    (h : index + count = values.length) :
    collect (.numbered values) index count = .ok (values.drop index) := by
  induction count generalizing index with
  | zero => exact congrArg Except.ok (List.drop_eq_nil_of_le
      (Nat.le_of_eq h.symm)).symm
  | succ count ih =>
    have hlt : index < values.length := by omega
    rw [collect, Store.get?_numbered, List.getElem?_eq_getElem hlt]
    show (collect (.numbered values) (index + 1) count >>= fun rest =>
      pure (values[index] :: rest)) = _
    rw [ih (by omega), List.drop_eq_getElem_cons hlt]
    rfl

/-- **All numbered values are collected.** -/
theorem Frame.collect_arguments {f : Frame} {values : List Value}
    (h : f.arguments = .numbered values) :
    collect f.arguments 0 f.argumentCount = .ok values := by
  have hcount : f.argumentCount = values.length := by
    have hfold := Store.foldr_numberedFrom 0 values
    unfold argumentCount
    rw [h]
    refine hfold.trans ?_
    split
    · next hnil => rw [hnil, List.length_nil]
    · exact Nat.zero_add _
  rw [hcount, h, collect_numbered (Nat.zero_add _), List.drop_zero]

/-! ## Setting arguments aside -/

/-- The frame with other arguments set aside. -/
def Frame.withArguments (f : Frame) (arguments : Store Nat) : Frame :=
  { f with arguments := arguments }

theorem argumentRoom_lt : argumentRoom + 1 < UInt64.size := by decide

theorem Frame.Runs.crash {β : Type} {a : Assembly} {room : Prop} {bound : Nat}
    {callers : List Frame} {f : Frame} {w : World} {good : β → Frame → Prop}
    {result : EStateM.Result Stop World β} {i : Instr} {rest : Code}
    (hrest : f.rest = i :: rest) (hroom : ¬ room)
    (hi : ∀ callers s, Machine.perform a i (f.withRest rest) callers s
      = .halt .crashed s) :
    f.Runs a room bound callers w good result := by
  rintro m rfl rfl rfl
  have hstep := (Machine.step_none hrest).trans (hi m.callers _)
  exact Or.inl ⟨hroom, 1, _, hstep⟩

/-! ## Calling -/

/-- The frame with a value that a callee handed back. -/
def Frame.receiving (f : Frame) (v : Value) : Frame :=
  { f with received := some v }

/-- **The end of a call hands the result back** to the first of the callers.
-/
theorem Transition.Realizes.leave {β : Type} {a : Assembly}
    {tr : Transition} {room : Prop} {bound : Nat} {caller : Frame}
    {callers : List Frame} {value : β → Value}
    {result : EStateM.Result Stop World β}
    (h : tr.Realizes a room bound (caller :: callers)
      (fun b f => f.rest = [.leave] ∧ f.result = some (value b)) result) :
    tr.Realizes a room bound callers
      (fun b f => f = caller.receiving (value b)) result := by
  refine h.imp_right fun h => ?_
  match result with
  | .ok b w =>
    obtain ⟨n, m, hafter, hcallers, ⟨hrest, hresult⟩, hw⟩ := h
    refine ⟨n + 1, ⟨caller.receiving (value b), callers,
      m.session.countStep.record (.step m.frame.name .leave)⟩, ?_, rfl, rfl,
      hw⟩
    rw [after_add, hafter]
    show m.step a none = _
    rw [Machine.step_none hrest, hcallers, Frame.receiving, ← hresult]
    rfl
  | .error (.failed error) w => exact h
  | .error .stuck _ => exact h
  | .error .outOfFuel _ => exact h

/-- **A call runs the routine of that name** with the arguments set aside, and
hands its result back. -/
theorem Frame.Runs.call {β : Type} {a : Assembly} {room : Prop} {bound : Nat}
    {callers : List Frame} {f : Frame} {w : World} {callee : Ident}
    {r : Routine} {args : List Value} {k : Code} {value : β → Value}
    {result : EStateM.Result Stop World β}
    (hrest : f.rest = .call callee :: k)
    (hroutine : a.routine? callee = some r)
    (hargs : f.arguments = .numbered args)
    (hlength : args.length = r.prototype.params.length)
    (h : (Frame.enter r args).Runs a room bound
      ((f.withRest k).withArguments .empty :: callers) w
      (fun b f' => f'.rest = [.leave] ∧ f'.result = some (value b)) result) :
    f.Runs a room (bound + 1) callers w
      (fun b f' => f'
        = ((f.withRest k).withArguments .empty).receiving (value b))
      result := by
  rintro m rfl rfl rfl
  have hcollect := Frame.collect_arguments hargs
  obtain ⟨s, hs, henter⟩ : ∃ s, s.world = m.session.world
      ∧ m.step a none = .next ⟨.enter r args,
        (m.frame.withRest k).withArguments .empty :: m.callers, s⟩ := by
    refine ⟨(m.session.countStep.record (.step m.frame.name
      (.call callee))).record (.call r.name args), rfl, ?_⟩
    rw [Machine.step_none hrest]
    show Machine.call a callee (m.frame.withRest k) m.callers _ = _
    unfold Machine.call
    have hframe : collect (m.frame.withRest k).arguments 0
        (m.frame.withRest k).argumentCount = .ok args := hcollect
    simp only [hroutine, hframe]
    exact if_neg (Nat.not_lt.mpr (Nat.le_of_eq hlength.symm))
  rw [Nat.add_comm]
  refine Transition.Realizes.of_after ?_
  show (m.step a none).Realizes a room bound m.callers _ result
  rw [henter]
  exact (h ⟨_, _, s⟩ rfl rfl hs).leave

end Primer
