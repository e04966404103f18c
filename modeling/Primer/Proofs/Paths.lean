import Primer.Proofs.Emission.Labels
import Primer.Proofs.Machine.Control

/-!
# Paths through code

Code is a graph of its positions, a position being the code from there on.
From a label, a jump or a branch control passes as the instruction says,
whichever way a branch may go; a call goes on behind itself, as if the callee
took no time; and nothing follows the end of a body. `Code.Flow` is that
relation, and the machine keeps to it (`Machine.step_flow`). A path is a
sequence of such steps with the instructions that were passed.

What is asked of paths here is always the same: that something hold of the
instructions on every way out, from a position to the end of the body. A loop
makes that a statement about itself, so it is counted how long the ways are
(`Code.WaysOut`), and a way through a loop is one step shorter each time the
loop begins anew.
-/

namespace Primer

/-- Whether an instruction sets what the body hands back. -/
def Instr.setsResult : Instr → Bool
  | setResult _ => true
  | _ => false

namespace Code

/-! ## The graph -/

/-- **The flow of control** in code, from one position to another. -/
inductive Flow (code : Code) : Code → Code → Prop
  /-- On to the next instruction. -/
  | next {i : Instr} {rest : Code} (htargets : i.targets = [])
      (hleave : i ≠ .leave) : Flow code (i :: rest) rest
  /-- On to a label. -/
  | jump {i : Instr} {rest found : Code} {l : Label} (hl : l ∈ i.targets)
      (hfound : code.atLabel? l = some found) : Flow code (i :: rest) found

/-- **A path** from one position to another, and the instructions on it. -/
inductive Path (code : Code) : Code → List Instr → Code → Prop
  /-- No step. -/
  | nil (pos : Code) : Path code pos [] pos
  /-- A step, then the others. -/
  | cons {i : Instr} {rest next last : Code} {trace : List Instr}
      (hflow : Flow code (i :: rest) next)
      (hpath : Path code next trace last) :
    Path code (i :: rest) (i :: trace) last

theorem atLabel?_of_suffix {code after : Code} {l : Label}
    (hnodup : code.labels.Nodup) (h : .label l :: after <:+ code) :
    code.atLabel? l = some (.label l :: after) := by
  obtain ⟨before, rfl⟩ := h
  exact atLabel?_append hnodup

/-! ## Quiet code -/

/-- **Quiet code** sets no result. -/
def IsQuiet (code : Code) : Prop := ∀ i ∈ code, i.setsResult = false

@[simp] theorem isQuiet_nil : IsQuiet [] := nofun

@[simp] theorem isQuiet_cons {i : Instr} {code : Code} :
    IsQuiet (i :: code) ↔ i.setsResult = false ∧ code.IsQuiet :=
  List.forall_mem_cons

@[simp] theorem isQuiet_append {code rest : Code} :
    (code ++ rest).IsQuiet ↔ code.IsQuiet ∧ rest.IsQuiet :=
  List.forall_mem_append

/-- **What quiet instructions cannot break**: it still holds with one more of
them in front. -/
def IsQuietly (P : List Instr → Prop) : Prop :=
  ∀ i trace, i.setsResult = false → P trace → P (i :: trace)

theorem isQuietly_isQuiet : IsQuietly IsQuiet :=
  fun _ _ hi htrace => isQuiet_cons.mpr ⟨hi, htrace⟩

/-! ## Ways out -/

/-- **What holds of the ways out**: of the instructions on every path of at
most `n` steps from a position to the end of a body. -/
def WaysOut (code : Code) (P : List Instr → Prop) (n : Nat) (pos : Code) :
    Prop :=
  ∀ trace rest, code.Path pos trace (.leave :: rest) → trace.length ≤ n →
    P trace

namespace WaysOut

variable {code rest found : Code} {P Q : List Instr → Prop} {n m : Nat}
  {i : Instr} {l : Label}

theorem mono (h : code.WaysOut P n found) (hle : m ≤ n) :
    code.WaysOut P m found := fun trace last hpath hlength =>
  h trace last hpath (Nat.le_trans hlength hle)

/-- At the end, there is one way out. -/
theorem leave (h : P []) : code.WaysOut P n (.leave :: rest) := by
  intro trace last hpath _
  cases hpath with
  | nil => exact h
  | cons hflow => cases hflow with
    | next _ hleave => exact absurd rfl hleave
    | jump hl => cases hl

theorem zero (hleave : i ≠ .leave) : code.WaysOut P 0 (i :: rest) := by
  intro trace last hpath hlength
  cases hpath with
  | nil => exact absurd rfl hleave
  | cons => cases hlength

/-- **A way out begins with a step**, and goes on where that leads. -/
theorem step (hleave : i ≠ .leave) (hP : ∀ trace, Q trace → P (i :: trace))
    (hflow : ∀ next, code.Flow (i :: rest) next → code.WaysOut Q n next) :
    code.WaysOut P (n + 1) (i :: rest) := by
  intro trace last hpath hlength
  cases hpath with
  | nil => exact absurd rfl hleave
  | cons hstep hpath =>
    exact hP _ (hflow _ hstep _ _ hpath (Nat.le_of_succ_le_succ hlength))

/-- Past an instruction that passes no control, in one step. -/
theorem succ (htargets : i.targets = []) (hleave : i ≠ .leave)
    (hP : ∀ trace, Q trace → P (i :: trace)) (h : code.WaysOut Q n rest) :
    code.WaysOut P (n + 1) (i :: rest) := by
  refine step hleave hP fun next hflow => ?_
  cases hflow with
  | next => exact h
  | jump hl =>
    rw [htargets] at hl
    cases hl

theorem next (htargets : i.targets = []) (hleave : i ≠ .leave)
    (hP : ∀ trace, Q trace → P (i :: trace)) (h : code.WaysOut Q n rest) :
    code.WaysOut P n (i :: rest) := by
  cases n with
  | zero => exact zero hleave
  | succ n => exact succ htargets hleave hP (h.mono (Nat.le_succ n))

theorem quiet (hP : IsQuietly P) (htargets : i.targets = [])
    (hleave : i ≠ .leave) (hi : i.setsResult = false)
    (h : code.WaysOut P n rest) : code.WaysOut P n (i :: rest) :=
  next htargets hleave (fun trace => hP i trace hi) h

/-- To where a jump goes. -/
theorem jump (hP : ∀ trace, Q trace → P (.jump l :: trace))
    (hfound : code.atLabel? l = some found) (h : code.WaysOut Q n found) :
    code.WaysOut P n (.jump l :: rest) := by
  cases n with
  | zero => exact zero nofun
  | succ n =>
    refine step nofun hP fun next hflow => ?_
    cases hflow with
    | next htargets => cases htargets
    | jump hl hfound' =>
      cases List.mem_singleton.mp hl
      rw [hfound] at hfound'
      cases hfound'
      exact h.mono (Nat.le_succ n)

/-- **Past a quiet piece of code**, if the same holds behind the piece and at
the labels that it leaves for. -/
theorem piece (hP : IsQuietly P) (hnodup : code.labels.Nodup)
    {exits : List Label} {mid after : Code} (hin : mid ++ after <:+ code)
    (hinner : mid.Inner exits) (hquiet : mid.IsQuiet)
    (hexits : ∀ l ∈ exits, ∀ found, code.atLabel? l = some found →
      code.WaysOut P n found)
    (hafter : code.WaysOut P n after) : code.WaysOut P n (mid ++ after) := by
  -- a step within the piece leads to another tail of it, so all tails are
  -- followed at once, by induction on the length of the ways
  suffices h : ∀ tail, tail <:+ mid → code.WaysOut P n (tail ++ after) from
    h mid (List.suffix_refl mid)
  induction n with
  | zero =>
    intro tail htail
    cases tail with
    | nil => exact hafter
    | cons i tail =>
      refine zero fun hleave => hinner.leave ?_
      exact hleave ▸ htail.mem (List.mem_cons_self ..)
  | succ n ih =>
    have ih := ih (fun l hl found hfound =>
      (hexits l hl found hfound).mono (Nat.le_succ n))
      (hafter.mono (Nat.le_succ n))
    intro tail htail
    cases tail with
    | nil => exact hafter
    | cons i tail =>
      have hi : i ∈ mid := htail.mem (List.mem_cons_self ..)
      refine step (fun hleave => hinner.leave (hleave ▸ hi))
        (fun trace => hP i trace (hquiet i hi)) fun next hflow => ?_
      cases hflow with
      | next => exact ih tail ((List.suffix_cons i tail).trans htail)
      | @jump _ _ _ l hl hfound =>
        rcases hinner.targets l (List.mem_flatMap.mpr ⟨i, hi, hl⟩) with
          hlabel | hexit
        · obtain ⟨first, last, rfl⟩ :=
            List.append_of_mem (mem_labels.mp hlabel)
          rw [List.append_assoc] at hin
          have hplace := (List.suffix_append first _).trans hin
          rw [atLabel?_of_suffix hnodup hplace] at hfound
          cases hfound
          exact ih (.label l :: last) (List.suffix_append first _)
        · exact (hexits l hexit next hfound).mono (Nat.le_succ n)

end WaysOut

end Code

/-! ## The machine -/

/-- **The machine keeps to the graph**: a step that neither calls nor leaves
goes from one position to another as control flows in the routine. -/
theorem Machine.step_flow {a : Assembly} {limit : Option Nat} {m m' : Machine}
    {i : Instr} {rest : Code} (hrest : m.frame.rest = i :: rest)
    (hleave : i ≠ .leave) (hcall : ∀ callee, i ≠ .call callee)
    (hstep : m.step a limit = .next m') :
    m'.frame.routine = m.frame.routine
      ∧ m.frame.routine.code.Flow m.frame.rest m'.frame.rest := by
  obtain ⟨hexecute, -⟩ :=
    perform_eq_next hleave hcall (step_eq_next hrest hstep)
  obtain ⟨hroutine, hnext⟩ := Instr.execute_eq_ok hexecute
  refine ⟨hroutine, ?_⟩
  rw [hrest]
  rcases hnext with ⟨htargets, hnext⟩ | ⟨l, hl, hnext⟩
  · rw [hnext]
    exact .next htargets hleave
  · exact .jump hl hnext

end Primer
