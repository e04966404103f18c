import Primer.Proofs.Simulation.Programs
import Primer.Proofs.Typing.Scopes

/-!
# Programs in another order

The definitions of a program may stand in any order. A call means the
definition of a name, and where no two definitions have one name it is the
same one wherever it stands (`Program.IsReordering.find?_eq`). So a program in
another order has the same signatures, is well typed if the program is, and
means the same (`Program.IsReordering.exec_eq`).

The check goes through the definitions in their order and stops at the first
error, which may be another one in another order. If there is none, the same
definitions come out of it with the same scopes, in the other order
(`Program.IsReordering.check`).
-/

namespace Primer

variable {α : Type}

/-- **A program in another order**: the definitions are the same, and so is
the main script. -/
structure Program.IsReordering (p q : Program α) : Prop where
  /-- The definitions are the same. -/
  definitions : q.definitions.Perm p.definitions
  /-- The main script is the same. -/
  main : q.main = p.main

/-- **A checked program in another order**, with the scopes of its bodies. -/
structure TypedProgram.IsReordering (typed typed' : TypedProgram) : Prop where
  /-- It is the program in another order. -/
  program : typed.program.IsReordering typed'.program
  /-- The scopes of the bodies are the same. -/
  nested : typed'.symbols.nested.Perm typed.symbols.nested

/-- **Among different names, one is found wherever it stands.** -/
theorem find?_eq_some_of_nodup {β : Type} {nameOf : β → String} {bs : List β}
    (h : (bs.map nameOf).Nodup) {name : String} {b : β} :
    bs.find? (nameOf · == name) = some b ↔ b ∈ bs ∧ nameOf b = name := by
  constructor
  · intro hb
    exact ⟨List.mem_of_find?_eq_some hb, by simpa using List.find?_some hb⟩
  · rintro ⟨hb, rfl⟩
    cases hfind : bs.find? (nameOf · == nameOf b) with
    | none => simpa using List.find?_eq_none.mp hfind b hb
    | some b' =>
      have hname := List.find?_some hfind
      exact congrArg some (List.inj_on_of_nodup_map h
        (List.mem_of_find?_eq_some hfind) hb (by simpa using hname))

namespace Program.IsReordering

variable {p q : Program α}

theorem symm (h : p.IsReordering q) : q.IsReordering p :=
  ⟨h.definitions.symm, h.main.symm⟩

theorem names (h : p.IsReordering q) :
    (q.definitions.map Definition.name).Perm
      (p.definitions.map Definition.name) := h.definitions.map _

theorem bodies (h : p.IsReordering q) : q.bodies.Perm p.bodies := by
  unfold Program.bodies script
  rw [h.main]
  exact h.definitions.append_right _

/-- **A name means the same definition.** -/
theorem find?_eq (h : p.IsReordering q)
    (hnodup : (p.definitions.map Definition.name).Nodup) (name : Ident) :
    q.definitions.find? (·.name == name)
      = p.definitions.find? (·.name == name) := by
  refine Option.ext fun d => ?_
  rw [find?_eq_some_of_nodup hnodup,
    find?_eq_some_of_nodup (h.names.nodup_iff.mpr hnodup),
    h.definitions.mem_iff]

theorem signature?_eq (h : p.IsReordering q)
    (hnodup : (p.definitions.map Definition.name).Nodup) :
    q.signature? = p.signature? :=
  funext fun name => congrArg (Option.map _) (h.find?_eq hnodup name)

/-- **A well typed program is well typed in another order.** -/
theorem wellTyped [Note α] (h : p.IsReordering q) (hp : p.WellTyped) :
    q.WellTyped where
  distinct := h.names.nodup_iff.mpr hp.distinct
  entryPoint d hd := hp.entryPoint d (h.definitions.mem_iff.mp hd)
  definitions d hd := by
    rw [h.signature?_eq hp.distinct]
    exact hp.definitions d (h.definitions.mem_iff.mp hd)
  main := by
    rw [h.signature?_eq hp.distinct, h.main]
    exact hp.main

theorem hasPlainNames (h : p.IsReordering q) (hp : p.HasPlainNames) :
    q.HasPlainNames where
  definitions d hd := hp.definitions d (h.definitions.mem_iff.mp hd)
  parameters d hd := hp.parameters d (h.definitions.mem_iff.mp hd)
  introduced d hd := hp.introduced d (h.bodies.mem_iff.mp hd)

/-- Calls have the same values. -/
theorem call_eq (h : p.IsReordering q)
    (hnodup : (p.definitions.map Definition.name).Nodup) (fuel : Nat) :
    q.call fuel = p.call fuel := by
  induction fuel with
  | zero => rfl
  | succ fuel ih =>
    funext callee args
    rw [call, call, ih, h.find?_eq hnodup]

/-- **A program means the same in another order.** -/
theorem exec_eq (h : p.IsReordering q)
    (hnodup : (p.definitions.map Definition.name).Nodup) (fuel : Nat) :
    q.exec fuel = p.exec fuel := by
  rw [exec, exec, h.call_eq hnodup, h.main]

end Program.IsReordering

/-! ## Checking -/

/-- **Definitions in another order** pass the check if they do in one, and
what comes out of it is the same. -/
theorem Definition.checkAll_perm {sigs : Signatures}
    {ds ds' : List (Definition Span)} (h : ds.Perm ds')
    {cs : List (Definition Judged × Scope)} (hcs : checkAll sigs ds = .ok cs) :
    ∃ cs', checkAll sigs ds' = .ok cs' ∧ cs'.Perm cs := by
  induction h generalizing cs with
  | nil => exact ⟨cs, hcs, .refl cs⟩
  | cons d _ ih =>
    obtain ⟨c, hd, h⟩ := bind_eq_ok.mp hcs
    obtain ⟨cs, hds, h⟩ := bind_eq_ok.mp h
    cases pure_eq_ok.mp h
    obtain ⟨cs', hds', hperm⟩ := ih hds
    exact ⟨c :: cs', bind_eq_ok.mpr ⟨c, hd, bind_eq_ok.mpr ⟨cs', hds', rfl⟩⟩,
      hperm.cons c⟩
  | swap d d' ds =>
    obtain ⟨c', hd', h⟩ := bind_eq_ok.mp hcs
    obtain ⟨_, h', h⟩ := bind_eq_ok.mp h
    cases pure_eq_ok.mp h
    obtain ⟨c, hd, h⟩ := bind_eq_ok.mp h'
    obtain ⟨cs, hds, h⟩ := bind_eq_ok.mp h
    cases pure_eq_ok.mp h
    exact ⟨c :: c' :: cs, bind_eq_ok.mpr ⟨c, hd, bind_eq_ok.mpr
      ⟨c' :: cs, bind_eq_ok.mpr ⟨c', hd', bind_eq_ok.mpr ⟨cs, hds, rfl⟩⟩,
        rfl⟩⟩, .swap c' c cs⟩
  | trans _ _ ih ih' =>
    obtain ⟨cs', hcs', hperm⟩ := ih hcs
    obtain ⟨cs'', hcs'', hperm'⟩ := ih' hcs'
    exact ⟨cs'', hcs'', hperm'.trans hperm⟩

/-- **A program in another order passes the check** if the program does, and
what comes out of it is the same in the other order. -/
theorem Program.IsReordering.check {p q : Program Span}
    (h : p.IsReordering q) {typed : TypedProgram}
    (hp : p.check = .ok typed) :
    ∃ typed', q.check = .ok typed' ∧ typed.IsReordering typed' := by
  have hsound := check_sound hp
  have hwell : p.WellTyped := hsound.erase ▸ hsound.wellTyped.erase
  obtain ⟨_, -, hp⟩ := bind_eq_ok.mp hp
  obtain ⟨cs, hcs, hp⟩ := bind_eq_ok.mp hp
  obtain ⟨main, hmain, hp⟩ := bind_eq_ok.mp hp
  cases pure_eq_ok.mp hp
  have hq := h.wellTyped hwell
  rw [← h.signature?_eq hwell.distinct] at hcs hmain
  obtain ⟨cs', hcs', hperm⟩ := Definition.checkAll_perm h.definitions.symm hcs
  rw [← h.main] at hmain
  refine ⟨_, bind_eq_ok.mpr ⟨(), Definition.expectDistinct_eq_ok.mpr
    ⟨hq.distinct, hq.entryPoint, fun _ _ => List.not_mem_nil⟩, bind_eq_ok.mpr
      ⟨cs', hcs', bind_eq_ok.mpr ⟨main, hmain, rfl⟩⟩⟩, ?_⟩
  exact ⟨⟨hperm.map _, rfl⟩, (hperm.map _).append_right _⟩

/-- **A scope belongs to the same body in another order.** -/
theorem TypedProgram.IsReordering.scope_eq {typed typed' : TypedProgram}
    (h : typed.IsReordering typed')
    (hnodup : (typed.symbols.nested.map Scope.owner).Nodup) {owner : Ident}
    {id id' : ScopeId} (hid : typed.symbols.scopeOf? owner = some id)
    (hid' : typed'.symbols.scopeOf? owner = some id') :
    typed'.symbols.scope id' = typed.symbols.scope id := by
  obtain ⟨i, hi, rfl⟩ := Option.map_eq_some_iff.mp hid
  obtain ⟨j, hj, rfl⟩ := Option.map_eq_some_iff.mp hid'
  obtain ⟨s, hs, hsowner⟩ := SymbolTable.lastOwned?_eq_some hi
  obtain ⟨s', hs', hsowner'⟩ := SymbolTable.lastOwned?_eq_some hj
  rw [SymbolTable.scope, SymbolTable.scope, hs, hs']
  exact List.inj_on_of_nodup_map hnodup
    (h.nested.mem_iff.mp (List.mem_of_getElem? hs'))
    (List.mem_of_getElem? hs) (hsowner'.trans hsowner.symm)

end Primer
