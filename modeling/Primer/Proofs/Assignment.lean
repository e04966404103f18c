import Mathlib.Data.List.Nodup
import Primer.Proofs.Emission.Variables
import Primer.Proofs.Paths

/-!
# Places that are written before they are read

On every path from the start of a body to an instruction that reads a place,
an instruction writes the place. For variables that is a matter of the
program, and nothing is said of them here. For all other places it is proved
without looking at paths: code is *careful* if one can say at each label which
places have been written there, whatever way control has come, such that
every instruction reads only what has been written (`Code.Careful`). The
places that are written at labels are marks on the code, and with each label
marked once, careful code writes before it reads on all paths
(`Code.Careful.exists_write`).

Code is put together of pieces, and the marks are found piece by piece. A
piece comes with the marks of its own labels, and it relies on marks of labels
that it is given to leave for (`Code.IsCareful`).
-/

namespace Primer

namespace Instr

/-- The places that an instruction reads. -/
def reads : Instr → List Slot
  | move _ src | branchZero _ src _ _ | setArgument _ src | setResult src
  | printInt src | printString src | intToStr _ src | strToInt _ src => [src]
  | arith _ _ lhs rhs | branchCompare _ lhs rhs _ _ => [lhs, rhs]
  | label _ | enter | leave | set _ _ | jump _ | call _ | fetchResult _
  | loadString _ _ | readInt _ | nop => []

/-- **A careful instruction** reads, apart from variables, only places that
have been written. -/
def IsCareful (written : List Slot) (i : Instr) : Prop :=
  ∀ x ∈ i.reads, Ident.Plain x ∨ x ∈ written

theorem IsCareful.mono {i : Instr} {written more : List Slot}
    (h : i.IsCareful written) (hsub : written ⊆ more) : i.IsCareful more :=
  fun x hx => (h x hx).imp_right fun hx => hsub hx

theorem IsCareful.of_subset {i : Instr} {written : List Slot}
    (h : i.reads ⊆ written) : i.IsCareful written :=
  fun _ hx => .inr (h hx)

theorem IsCareful.of_nil {i : Instr} {written : List Slot}
    (h : i.reads = []) : i.IsCareful written := by
  intro x hx
  rw [h] at hx
  cases hx

theorem IsCareful.of_plain {i : Instr} {name : Ident} {written : List Slot}
    (h : i.reads = [name]) (hname : Ident.Plain name) :
    i.IsCareful written := by
  unfold IsCareful
  rw [h]
  exact List.forall_mem_singleton.mpr (.inl hname)

end Instr

namespace Code

/-- The places that code reads, as often as it does. -/
def reads (code : Code) : List Slot := code.flatMap Instr.reads

@[simp] theorem reads_nil : reads [] = [] := rfl

@[simp] theorem reads_append (code rest : Code) :
    reads (code ++ rest) = reads code ++ reads rest := List.flatMap_append

@[simp] theorem reads_cons (i : Instr) (code : Code) :
    reads (i :: code) = i.reads ++ reads code := rfl

/-! ## Careful code -/

/-- **Marks on code**: the places that have been written at a label. -/
abbrev Marks := List (Label × List Slot)

/-- **Careful code**: where `written` have been written when it starts, its
instructions are careful, and `after` have been written when it ends. -/
inductive Careful (marks : Marks) : List Slot → Code → List Slot → Prop
  /-- No code. -/
  | nil {written after : List Slot} (h : after ⊆ written) :
    Careful marks written [] after
  /-- A label. Behind it no more is known than the mark says. -/
  | label {l : Label} {here written after : List Slot} {code : Code}
      (hmark : (l, here) ∈ marks) (hhere : here ⊆ written)
      (h : Careful marks here code after) :
    Careful marks written (.label l :: code) after
  /-- An instruction that goes to labels, where what is marked has been
  written. Control does not come from here to what follows. -/
  | go {i : Instr} {written others after : List Slot} {code : Code}
      (htargets : i.targets ≠ []) (hi : i.IsCareful written)
      (hmarks : ∀ l ∈ i.targets, ∃ here ⊆ written, (l, here) ∈ marks)
      (h : Careful marks others code after) :
    Careful marks written (i :: code) after
  /-- Any other instruction. It may write one place more. -/
  | next {i : Instr} {written after : List Slot} {code : Code}
      (htargets : i.targets = []) (hlabel : i.label? = none)
      (hi : i.IsCareful written)
      (h : Careful marks (i.dst?.toList ++ written) code after) :
    Careful marks written (i :: code) after

namespace Careful

variable {marks : Marks} {written more after less : List Slot}
  {code rest : Code}

/-- More may have been written. -/
theorem mono (h : Careful marks written code after)
    (hsub : written ⊆ more) : Careful marks more code after := by
  induction h generalizing more with
  | nil hafter => exact .nil (List.Subset.trans hafter hsub)
  | label hmark hhere h => exact .label hmark (List.Subset.trans hhere hsub) h
  | go htargets hi hmarks h =>
    refine .go htargets (hi.mono hsub) (fun l hl => ?_) h
    obtain ⟨here, hhere, hmark⟩ := hmarks l hl
    exact ⟨here, List.Subset.trans hhere hsub, hmark⟩
  | next htargets hlabel hi _ ih =>
    refine .next htargets hlabel (hi.mono hsub) (ih ?_)
    exact List.append_subset.mpr ⟨List.subset_append_left _ _,
      List.Subset.trans hsub (List.subset_append_right _ _)⟩

/-- One piece behind another. -/
theorem append (h : Careful marks written code after)
    (h' : Careful marks after rest less) :
    Careful marks written (code ++ rest) less := by
  induction h with
  | nil hafter => exact h'.mono hafter
  | label hmark hhere _ ih => exact .label hmark hhere (ih h')
  | go htargets hi hmarks _ ih => exact .go htargets hi hmarks (ih h')
  | next htargets hlabel hi _ ih => exact .next htargets hlabel hi (ih h')

/-- **Careful code is careful from each of its labels on**, where what is
marked has been written. -/
theorem of_suffix {l : Label} (h : Careful marks written code after)
    (hsuffix : .label l :: rest <:+ code) :
    ∃ here, (l, here) ∈ marks ∧ Careful marks here (.label l :: rest) after
    := by
  induction h with
  | nil => cases List.eq_nil_of_suffix_nil hsuffix
  | @label l' here _ _ _ hmark hhere h ih =>
    rcases List.suffix_cons_iff.mp hsuffix with heq | hsuffix
    · cases heq
      exact ⟨here, hmark, .label hmark (List.Subset.refl here) h⟩
    · exact ih hsuffix
  | go htargets _ _ _ ih =>
    rcases List.suffix_cons_iff.mp hsuffix with heq | hsuffix
    · cases heq
      exact absurd rfl htargets
    · exact ih hsuffix
  | next _ hlabel _ _ ih =>
    rcases List.suffix_cons_iff.mp hsuffix with heq | hsuffix
    · cases heq
      cases hlabel
    · exact ih hsuffix

/-- **Careful code stays careful along a path.** At the end of the path no
more is known to be written than what was written at its start and what the
instructions on it have written. -/
theorem path (h : Careful marks written code after)
    (hmarks : (marks.map Prod.fst).Nodup) {pos last : Code}
    {trace : List Instr} (hpath : code.Path pos trace last) {here : List Slot}
    (hpos : Careful marks here pos after) :
    ∃ there, Careful marks there last after
      ∧ ∀ x ∈ there, x ∈ here ∨ ∃ j ∈ trace, j.dst? = some x := by
  induction hpath generalizing here with
  | nil => exact ⟨here, hpos, fun _ => .inl⟩
  | @cons i rest next last trace hflow _ ih =>
    -- where the step leads, what is known was written before or by the step
    suffices hstep : ∃ known, Careful marks known next after
        ∧ ∀ x ∈ known, x ∈ here ∨ i.dst? = some x by
      obtain ⟨known, hnext, hknown⟩ := hstep
      obtain ⟨there, hlast, hthere⟩ := ih hnext
      refine ⟨there, hlast, fun x hx => ?_⟩
      rcases hthere x hx with hx | ⟨j, hj, hdst⟩
      · exact (hknown x hx).imp_right fun hdst =>
          ⟨i, List.mem_cons_self .., hdst⟩
      · exact .inr ⟨j, List.mem_cons_of_mem i hj, hdst⟩
    cases hflow with
    | next htargets _ => cases hpos with
      | label hmark hhere hnext =>
        exact ⟨_, hnext, fun x hx => .inl (hhere hx)⟩
      | go hne => exact absurd htargets hne
      | next _ _ _ hnext =>
        refine ⟨_, hnext, fun x hx => ?_⟩
        rcases List.mem_append.mp hx with hx | hx
        · exact .inr (Option.mem_toList.mp hx)
        · exact .inl hx
    | jump hl hfound =>
      obtain ⟨hsuffix, rest', rfl⟩ := atLabel?_eq_some hfound
      obtain ⟨known, hmark, hnext⟩ := h.of_suffix hsuffix
      cases hpos with
      | label => cases hl
      | next htargets =>
        rw [htargets] at hl
        cases hl
      | go _ _ hgo =>
        -- a label has one mark, so what was written suffices there
        obtain ⟨known', hsub, hmark'⟩ := hgo _ hl
        cases List.inj_on_of_nodup_map hmarks hmark hmark' rfl
        exact ⟨known, hnext, fun x hx => .inl (hsub hx)⟩

/-- **Careful code writes before it reads**: on every path from its start to
an instruction that reads a place, another one writes the place, unless the
place is a variable. -/
theorem exists_write (h : Careful marks [] code after)
    (hmarks : (marks.map Prod.fst).Nodup) {i : Instr} {trace : List Instr}
    (hpath : code.Path code trace (i :: rest)) {x : Slot} (hx : x ∈ i.reads)
    (hplain : ¬ Ident.Plain x) : ∃ j ∈ trace, j.dst? = some x := by
  obtain ⟨there, hlast, hthere⟩ := h.path hmarks hpath h
  have hwritten : x ∈ there := by
    cases hlast with
    | label => cases hx
    | go _ hi | next _ _ hi => exact (hi x hx).resolve_left hplain
  exact (hthere x hwritten).resolve_left List.not_mem_nil

end Careful

/-! ## Careful pieces -/

/-- **A careful piece of code**: with the marks `own` on its labels, and where
it may rely on the marks `given`, it is careful. -/
structure IsCareful (own given : Marks) (written : List Slot) (code : Code)
    (after : List Slot) : Prop where
  /-- Each label that the piece defines has a mark. -/
  labels : own.map Prod.fst = code.labels
  /-- The piece is careful within any code that has these marks. -/
  careful : ∀ marks, own ⊆ marks → given ⊆ marks →
    Careful marks written code after

namespace IsCareful

variable {own own' given given' : Marks} {written mid after : List Slot}
  {code rest : Code} {i : Instr} {l : Label}

theorem nil (given : Marks) (written : List Slot) :
    IsCareful [] given written [] written where
  labels := rfl
  careful _ _ _ := .nil (List.Subset.refl written)

theorem mono (h : IsCareful own given written code after)
    (hsub : given ⊆ given') : IsCareful own given' written code after where
  labels := h.labels
  careful marks hown hgiven :=
    h.careful marks hown (List.Subset.trans hsub hgiven)

/-- Two pieces that were given the same marks are one. -/
theorem append (h : IsCareful own given written code mid)
    (h' : IsCareful own' given mid rest after) :
    IsCareful (own ++ own') given written (code ++ rest) after where
  labels := by rw [List.map_append, h.labels, h'.labels, labels_append]
  careful marks hown hgiven := by
    obtain ⟨hown, hown'⟩ := List.append_subset.mp hown
    exact (h.careful marks hown hgiven).append
      (h'.careful marks hown' hgiven)

theorem close (inner : Marks)
    (h : IsCareful own (inner ++ given) written code after)
    (hinner : inner ⊆ own) : IsCareful own given written code after where
  labels := h.labels
  careful marks hown hgiven := h.careful marks hown
    (List.append_subset.mpr ⟨List.Subset.trans hinner hown, hgiven⟩)

theorem forget (h : IsCareful own given written code mid)
    (hsub : after ⊆ mid) : IsCareful own given written code after := by
  have hnil : IsCareful [] given mid [] after :=
    ⟨rfl, fun _ _ _ => .nil hsub⟩
  have h' := h.append hnil
  rwa [List.append_nil, List.append_nil] at h'

theorem label (l : Label) (given : Marks) (written : List Slot) :
    IsCareful [(l, written)] given written [.label l] written where
  labels := rfl
  careful _ hown _ := .label (hown (List.mem_singleton_self _))
    (List.Subset.refl _) (.nil (List.Subset.refl _))

/-- An instruction that goes to labels where what is marked has been written.
Beside of that it may read the places `temps`. -/
theorem go (temps : List Slot) (htargets : i.targets ≠ [])
    (hi : i.IsCareful temps)
    (hmarks : ∀ l ∈ i.targets, (l, written) ∈ given) :
    IsCareful [] given (temps ++ written) [i] after where
  labels := by
    cases i <;> first | rfl | exact absurd rfl htargets
  careful _ _ hgiven := by
    refine .go htargets (hi.mono (List.subset_append_left _ _))
      (fun l hl => ⟨written, List.subset_append_right _ _, ?_⟩)
      (.nil (List.Subset.refl after))
    exact hgiven (hmarks l hl)

theorem jump (h : (l, written) ∈ given) :
    IsCareful [] given written [.jump l] after :=
  go (i := .jump l) [] (List.cons_ne_nil l []) (.of_nil rfl)
    (List.forall_mem_singleton.mpr h)

/-- An instruction that goes to no label. It may read the places `temps`,
which are not needed afterwards. -/
theorem next (temps : List Slot) (htargets : i.targets = [])
    (hlabel : i.label? = none) (hi : i.IsCareful temps) :
    IsCareful [] given (temps ++ written) [i] (i.dst?.toList ++ written) where
  labels := by
    rw [labels_cons, hlabel]
    rfl
  careful _ _ _ := by
    refine .next htargets hlabel (hi.mono (List.subset_append_left _ _))
      (.nil (List.append_subset.mpr ⟨List.subset_append_left _ _, ?_⟩))
    exact List.Subset.trans (List.subset_append_right _ _)
      (List.subset_append_right _ _)

theorem readsNone (htargets : i.targets = []) (hlabel : i.label? = none)
    (hreads : i.reads = []) :
    IsCareful [] given written [i] (i.dst?.toList ++ written) :=
  next [] htargets hlabel (.of_nil hreads)

/-- An instruction that goes to no label and reads one temporary, which is not
needed afterwards. -/
theorem readsOne {temp : Slot} (htargets : i.targets = [])
    (hlabel : i.label? = none) (hreads : i.reads = [temp]) :
    IsCareful [] given (temp :: written) [i] (i.dst?.toList ++ written) :=
  next [temp] htargets hlabel (.of_subset (by rw [hreads]; exact fun _ => id))

end IsCareful

end Code

end Primer
