import Primer.Instr

/-!
# Labels in code

Code passes control to labels and defines labels. The labels it passes
control to are its *targets*, and a label that it defines is found by
`Code.atLabel?`, which gives the code from there on. If no label is defined
twice, the code after a label is found wherever the label stands
(`Code.atLabel?_append`), so a jump to the label arrives there.
-/

namespace Primer

namespace Instr

/-- The labels that an instruction may pass control to. -/
def targets : Instr → List Label
  | jump target => [target]
  | branchCompare _ _ _ ifTrue ifFalse | branchZero _ _ ifTrue ifFalse =>
    [ifTrue, ifFalse]
  | _ => []

/-- The places that an instruction reads or writes. -/
def slots : Instr → List Slot
  | move dst src | intToStr dst src | strToInt dst src => [dst, src]
  | set dst _ | fetchResult dst | loadString dst _ | readInt dst => [dst]
  | arith _ dst lhs rhs => [dst, lhs, rhs]
  | branchCompare _ lhs rhs _ _ => [lhs, rhs]
  | branchZero _ src _ _ | setArgument _ src | setResult src | printInt src
  | printString src => [src]
  | label _ | enter | leave | jump _ | call _ | nop => []

/-- The label that an instruction is, if it is one. -/
def label? : Instr → Option Label
  | label name => some name
  | _ => none

end Instr

namespace Code

/-- The labels that code defines, in order. -/
def labels (code : Code) : List Label := code.filterMap Instr.label?

/-- The labels that code may pass control to. -/
def targets (code : Code) : List Label := code.flatMap Instr.targets

@[simp] theorem labels_nil : labels [] = [] := rfl

@[simp] theorem labels_append (code rest : Code) :
    labels (code ++ rest) = labels code ++ labels rest :=
  List.filterMap_append

@[simp] theorem labels_cons (i : Instr) (code : Code) :
    labels (i :: code) = i.label?.toList ++ labels code := by
  unfold labels
  cases h : i.label? with
  | none => rw [List.filterMap_cons_none h]; rfl
  | some name => rw [List.filterMap_cons_some h]; rfl

@[simp] theorem targets_nil : targets [] = [] := rfl

@[simp] theorem targets_append (code rest : Code) :
    targets (code ++ rest) = targets code ++ targets rest :=
  List.flatMap_append

@[simp] theorem targets_cons (i : Instr) (code : Code) :
    targets (i :: code) = i.targets ++ targets code := rfl

end Code

namespace Code

/-- A label of the code is one of its instructions. -/
theorem mem_labels {code : Code} {name : Label} :
    name ∈ code.labels ↔ .label name ∈ code := by
  induction code with
  | nil => simp
  | cons i code ih =>
    rw [labels_cons, List.mem_append, ih, List.mem_cons]
    refine or_congr ?_ Iff.rfl
    cases i <;> simp [Instr.label?]

/-- What is found is a tail of the code that starts with the label. -/
theorem atLabel?_eq_some {name : Label} {code found : Code}
    (h : code.atLabel? name = some found) :
    found <:+ code ∧ ∃ rest, found = .label name :: rest := by
  induction code with
  | nil => cases h
  | cons i code ih =>
    rw [atLabel?] at h
    split at h
    · next hfound =>
      cases h
      obtain ⟨hsuffix, hrest⟩ := ih hfound
      exact ⟨hsuffix.trans (List.suffix_cons i code), hrest⟩
    · split at h
      · next hi =>
        cases h
        exact ⟨List.suffix_refl _, code, by rw [hi]⟩
      · cases h

/-- A label that is not defined is not found. -/
theorem atLabel?_eq_none {name : Label} {code : Code} :
    code.atLabel? name = none ↔ name ∉ code.labels := by
  induction code with
  | nil => simp [atLabel?]
  | cons i code ih =>
    rw [mem_labels, List.mem_cons, ← mem_labels, not_or, ← ih, atLabel?]
    cases atLabel? name code with
    | some _ => simp
    | none => simp [eq_comm]

/-- **A label that is defined once is found where it stands.** -/
theorem atLabel?_append {name : Label} {before after : Code}
    (h : (labels (before ++ .label name :: after)).Nodup) :
    atLabel? name (before ++ .label name :: after)
      = some (.label name :: after) := by
  have hafter : atLabel? name (.label name :: after)
      = some (.label name :: after) := by
    rw [labels_append, labels_cons] at h
    have hnot := (List.nodup_cons.mp (List.nodup_append.mp h).2.1).1
    -- a later definition would win, but there is none
    rw [atLabel?, atLabel?_eq_none.mpr hnot, if_pos rfl]
  induction before with
  | nil => exact hafter
  | cons i before ih =>
    rw [List.cons_append, labels_cons] at h
    rw [List.cons_append, atLabel?, ih (List.nodup_append.mp h).2.1]

end Code

end Primer
