import Primer.Proofs.Simulation.Programs
import Primer.Proofs.Simulation.Sights

/-!
# Calls of a program are answered

The routine that a call runs comes to its end in one state only, and this is a
state that the evaluator leads to if it is given enough fuel. Hence whatever
comes back from a call in the code of a checked program has the type that the
signature says (`Assembly.Implements.answers`).

Nothing of this changes when more texts get names, because code that has been
emitted means what it meant (`Assembly.Implements.keeps`).
-/

namespace Primer

open SymbolTable

/-! ## The end of a call -/

namespace Machine

variable {a : Assembly} {R : Machine → Prop} {m m' : Machine}

/-- Where a run leads, it comes after some steps. -/
theorem Leads.exists_after (h : m.Leads a R m') :
    ∃ n, Transition.after a n (.next m) = .next m' := by
  induction h with
  | refl => exact ⟨0, rfl⟩
  | tail _ hmoves ih =>
    obtain ⟨n, hafter⟩ := ih
    refine ⟨n + 1, ?_⟩
    rw [Transition.after_add, hafter]
    exact hmoves.2

/-- **The run ends with the call** if no other call waits for it. -/
theorem AtEnd.exists_halt (h : m.AtEnd) :
    ∃ s, m.step a none = .halt .finished s := by
  obtain ⟨hcallers, hrest | ⟨k, hrest⟩⟩ := h
  · refine ⟨m.session, ?_⟩
    rw [step, hrest, hcallers]
    rfl
  · refine ⟨m.session.countStep.record (.step m.frame.name .leave), ?_⟩
    rw [step_none hrest, hcallers]
    rfl

/-- **The end of a call is one state.** -/
theorem AtEnd.unique {tr : Transition} {n k : Nat}
    (h : Transition.after a n tr = .next m) (hend : m.AtEnd)
    (h' : Transition.after a k tr = .next m') (hend' : m'.AtEnd) :
    m = m' := by
  -- nothing comes after the end of a call
  have hlast {i j : Nat} {m₁ m₂ : Machine} (hend : m₁.AtEnd)
      (h₁ : Transition.after a i tr = .next m₁)
      (h₂ : Transition.after a j tr = .next m₂) : j ≤ i := by
    refine Nat.le_of_not_lt fun hlt => ?_
    obtain ⟨s, hhalt⟩ := hend.exists_halt (a := a)
    obtain ⟨m₃, h₃⟩ := Transition.after_eq_next h₂ (Nat.succ_le_of_lt hlt)
    rw [Nat.succ_eq_add_one, Transition.after_add, h₁] at h₃
    cases hhalt.symm.trans h₃
  obtain rfl := Nat.le_antisymm (hlast hend' h' h) (hlast hend h h')
  exact Transition.next.inj (h.symm.trans h')

end Machine

/-- **A run that comes to the end of a call realizes a value**, if it is
followed for longer than that. -/
theorem Transition.Realizes.exists_value {β : Type} {a : Assembly}
    {room : Prop} {bound n : Nat} {good : β → Frame → Prop} {tr : Transition}
    {result : EStateM.Result Stop World β} {m : Machine}
    (h : tr.Realizes a room bound [] good result)
    (hgood : ∀ b f, good b f → f.rest = [.leave])
    (hafter : after a n tr = .next m) (hend : m.AtEnd) (hbound : n < bound) :
    ∃ b w, result = .ok b w ∧ good b m.frame := by
  obtain ⟨s, hhalt⟩ := hend.exists_halt (a := a)
  have hends : after a (n + 1) tr = .halt .finished s := by
    rw [after_add, hafter]
    exact hhalt
  rcases h with ⟨-, k, s', hcrash⟩ | h
  · cases (after_unique hends hcrash).1
  · cases result with
    | ok b w =>
      obtain ⟨k, m', hafter', hcallers, hb, -⟩ := h
      have hend' : m'.AtEnd := ⟨hcallers, Or.inr ⟨[], hgood b _ hb⟩⟩
      obtain rfl := Machine.AtEnd.unique hafter hend hafter' hend'
      exact ⟨b, w, rfl, hb⟩
    | error stop w => cases stop with
      | failed error =>
        obtain ⟨k, s', hfail, -⟩ := h
        cases (after_unique hends hfail).1
      | stuck => exact False.elim h
      | outOfFuel =>
        obtain ⟨m', hafter'⟩ := h
        obtain ⟨m₁, hbefore⟩ := after_eq_next hafter' hbound
        cases hends.symm.trans hbefore

namespace Assembly.Implements

variable {a : Assembly} {c : Constants} {p : Program Judged}

/-- **What comes back from a call** has the type that the signature says. -/
theorem answers (h : a.Implements c p) : a.Answers p.signature? := by
  intro callee sig args hsig htys
  obtain ⟨d, hd, rfl⟩ := Option.map_eq_some_iff.mp hsig
  obtain ⟨r, hroutine, hr⟩ := h.routines callee d hd
  have hmem := List.mem_of_find?_eq_some hd
  have hlength : args.length = d.params.length := by
    simpa [Definition.signature] using congrArg List.length htys
  refine ⟨r, hroutine, by rw [hr.params, hlength], fun s m hleads hend => ?_⟩
  obtain ⟨n, hafter⟩ := hleads.exists_after
  -- there is more fuel than the run takes steps
  have hruns := h.runs_routine (h.realizes_call (n + 1)) hd hroutine hr htys
    [] s.world (.called r args s) rfl rfl rfl
  obtain ⟨v, w, hv, -, hresult⟩ := hruns.exists_value (fun _ _ hv => hv.1)
    hafter hend (Nat.lt_succ_self n)
  have hsafe := (h.wellTyped.definitions d hmem).safe_exec
    (h.wellTyped.safe_call (n + 1)) (List.mem_append_left _ hmem) (n + 1) htys
  exact ⟨v, hsafe.yields s.world v w hv, hresult⟩

/-- **Code implements what it did** when more texts have names. -/
theorem keeps (h : a.Implements c p) {symbols : SymbolTable}
    (hkeeps : a.symbols.Keeps symbols) :
    ({ a with symbols := symbols } : Assembly).Implements c p where
  wellTyped := h.wellTyped
  plain := h.plain
  distinct := h.distinct
  constants := h.constants.keeps hkeeps
  routines callee d hd := by
    obtain ⟨r, hroutine, hr⟩ := h.routines callee d hd
    exact ⟨r, hroutine, hr.keeps hkeeps⟩
  main := h.main.keeps hkeeps

end Assembly.Implements

end Primer
