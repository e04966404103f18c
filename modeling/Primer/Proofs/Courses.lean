import Primer.Proofs.Emission.Deliveries

/-!
# Courses through code

Code stands between other code, and control comes into it and leaves it again.
Where it can leave is a matter of the labels that the code was given: a step
from inside stays inside, or it runs past the end of the code, or it jumps to
a label that the code does not define (`Code.Flow.inside`). Where control can
come in is a matter of the labels that the code does define: if nothing
outside goes to one of them, control comes in at the start
(`Code.Flow.enters`).

A *course* is a path that stays inside until its last step, so what is said of
courses that have come outside is said of all paths that leave the code
(`Code.LeavesBy.of_path`). There are three ways to leave, and which of them
there are depends on the code: code that was given no label is run past its
end, code that ends in a jump is left by jumping, and code that was given one
label, to which it goes in returns only, is run past its end or returns.
-/

namespace Primer

namespace Code

/-! ## Inside and outside -/

/-- **A position inside of code** that `back` follows: some of the code is
still to come. -/
def Inside (code back pos : Code) : Prop :=
  ∃ part, part ≠ [] ∧ part <:+ code ∧ pos = part ++ back

/-- **A course**: a path all steps of which start at positions of one kind. -/
inductive Course (whole : Code) (P : Code → Prop) (start : Code) :
    List Instr → Code → Prop
  /-- No step. -/
  | nil : Course whole P start [] start
  /-- One more step at the end. -/
  | step {trace : List Instr} {i : Instr} {rest next : Code}
      (h : Course whole P start trace (i :: rest)) (hfrom : P (i :: rest))
      (hflow : whole.Flow (i :: rest) next) :
    Course whole P start (trace ++ [i]) next

/-- **Code is left in certain ways only**, if it is entered at its start: a
course through the inside of it that comes to a position outside has come
there in such a way. -/
def LeavesBy (whole code back : Code) (way : List Instr → Code → Prop) :
    Prop :=
  ∀ trace pos, whole.Course (Inside code back) (code ++ back) trace pos →
    ¬ Inside code back pos → way trace pos

/-- **Control runs past the end of code**: the last instruction of the code
is the last that was executed, and it is no jump. -/
structure RunsPast (code back : Code) (trace : List Instr) (pos : Code) :
    Prop where
  /-- What follows the code is next. -/
  pos : pos = back
  /-- The last instruction has been executed. -/
  last : trace.getLast? = code.getLast?
  /-- It goes to no label. -/
  falls : ∀ i ∈ code.getLast?, i.targets = []

/-- **Control jumps to a label**: that is what the last instruction does. -/
structure JumpsTo (whole : Code) (l : Label) (trace : List Instr)
    (pos : Code) : Prop where
  /-- The last instruction may go to the label. -/
  last : ∃ i, trace.getLast? = some i ∧ l ∈ i.targets
  /-- The label is where control is now. -/
  pos : whole.atLabel? l = some pos

/-- **Control returns**: the result is set, and directly after that the
jump to the exit is made. -/
structure Returns (whole : Code) (exit : Label) (trace : List Instr)
    (pos : Code) : Prop where
  /-- The last two instructions. -/
  last : ∃ before src, trace = before ++ [.setResult src, .jump exit]
  /-- The exit is where control is now. -/
  pos : whole.atLabel? exit = some pos

variable {front code back rest pos : Code} {exits : List Label}
  {i : Instr} {trace : List Instr} {exit : Label}

/-- A path that starts where a course has come to goes on with the course, or
with a longer one until it comes outside. -/
theorem Course.goesOn {whole start last : Code} {P : Code → Prop}
    {before : List Instr} (h : whole.Course P start before pos)
    (hpath : whole.Path pos trace last) :
    (whole.Course P start (before ++ trace) last ∧ P last)
      ∨ ∃ first rest out, before ++ trace = first ++ rest
        ∧ whole.Course P start first out ∧ ¬ P out
        ∧ whole.Path out rest last := by
  induction hpath generalizing before with
  | nil pos =>
    rw [List.append_nil]
    by_cases hpos : P pos
    · exact .inl ⟨h, hpos⟩
    · exact .inr ⟨before, [], pos, (List.append_nil _).symm, h, hpos, .nil _⟩
  | @cons i rest _ last trace hflow hpath ih =>
    by_cases hpos : P (i :: rest)
    · have hlater := ih (h.step hpos hflow)
      rwa [List.append_assoc] at hlater
    · exact .inr ⟨before, i :: trace, _, rfl, h, hpos, .cons hflow hpath⟩

/-- **A path from the start of code** stays inside, or it leaves the code in
one of the ways in which that is left, and goes on from there. -/
theorem LeavesBy.of_path {whole last : Code} {way : List Instr → Code → Prop}
    (h : whole.LeavesBy code back way)
    (hpath : whole.Path (code ++ back) trace last) :
    (whole.Course (Inside code back) (code ++ back) trace last
        ∧ Inside code back last)
      ∨ ∃ first rest out, trace = first ++ rest ∧ way first out
        ∧ whole.Path out rest last := by
  refine (Course.goesOn .nil hpath).imp_right ?_
  rintro ⟨first, rest, out, htrace, hcourse, hout, hrest⟩
  exact ⟨first, rest, out, htrace, h first out hcourse hout, hrest⟩

/-- An instruction inside is one of the code. -/
theorem inside_cons : Inside code back (i :: pos)
    ↔ ∃ rest, i :: rest <:+ code ∧ pos = rest ++ back := by
  constructor
  · rintro ⟨part, hpart, hsuffix, heq⟩
    cases part with
    | nil => exact absurd rfl hpart
    | cons j rest =>
      cases heq
      exact ⟨rest, hsuffix, rfl⟩
  · rintro ⟨rest, hsuffix, rfl⟩
    exact ⟨i :: rest, List.cons_ne_nil _ _, hsuffix, rfl⟩

/-- A position in code and what follows it is inside of the code, or it is one
of what follows. -/
theorem inside_or_suffix (h : i :: rest <:+ code ++ back) :
    Inside code back (i :: rest) ∨ i :: rest <:+ back := by
  obtain ⟨before, heq⟩ := h
  rcases List.append_eq_append_iff.mp heq with ⟨as, hcode, hrest⟩
    | ⟨as, -, hback⟩
  · cases as with
    | nil => exact .inr ⟨[], hrest⟩
    | cons j as =>
      exact .inl ⟨j :: as, List.cons_ne_nil _ _, ⟨before, hcode.symm⟩, hrest⟩
  · exact .inr ⟨as, hback.symm⟩

theorem getLast?_of_suffix (h : [i] <:+ code) : code.getLast? = some i := by
  obtain ⟨before, rfl⟩ := h
  exact List.getLast?_concat

/-- **A step from inside** stays inside, or it runs past the end, or it jumps
to a label that the code was given. -/
theorem Flow.inside (hnodup : (front ++ code ++ back).labels.Nodup)
    (hinner : code.Inner exits) (hsuffix : i :: rest <:+ code) {next : Code}
    (h : (front ++ code ++ back).Flow (i :: (rest ++ back)) next) :
    Inside code back next ∨ (rest = [] ∧ i.targets = [] ∧ next = back)
      ∨ ∃ l ∈ exits, l ∈ i.targets
        ∧ (front ++ code ++ back).atLabel? l = some next := by
  cases h with
  | next htargets =>
    cases rest with
    | nil => exact .inr (.inl ⟨rfl, htargets, rfl⟩)
    | cons j rest =>
      exact .inl (inside_cons.mpr
        ⟨rest, (List.suffix_cons i _).trans hsuffix, rfl⟩)
  | @jump _ _ _ l hl hfound =>
    have hi : l ∈ code.targets :=
      List.mem_flatMap.mpr ⟨i, hsuffix.mem (List.mem_cons_self ..), hl⟩
    rcases hinner.targets l hi with hlabel | hexit
    · obtain ⟨first, last, rfl⟩ := List.append_of_mem (mem_labels.mp hlabel)
      have hplace : .label l :: last ++ back
          <:+ front ++ (first ++ .label l :: last) ++ back :=
        ⟨front ++ first, by simp⟩
      rw [atLabel?_of_suffix hnodup hplace] at hfound
      cases hfound
      exact .inl (inside_cons.mpr ⟨last, List.suffix_append first _, rfl⟩)
    · exact .inr (.inr ⟨l, hexit, hl, hfound⟩)

/-- **Control comes in at the start**, if nothing outside goes to a label of
the code. -/
theorem Flow.enters
    (hhidden : ∀ l ∈ code.labels, l ∉ front.targets ∧ l ∉ back.targets)
    (hpos : pos <:+ front ++ code ++ back) {next : Code}
    (h : (front ++ code ++ back).Flow pos next)
    (hout : ¬ Inside code back pos) (hin : Inside code back next) :
    next = code ++ back := by
  cases h with
  | @next i =>
    obtain ⟨part, hpart, ⟨before, rfl⟩, rfl⟩ := hin
    -- if there were more of the code in front, that would be where it is now
    rcases List.eq_nil_or_concat before with rfl | ⟨before, j, rfl⟩
    · rfl
    · have hj : j :: (part ++ back)
          <:+ front ++ (before.concat j ++ part) ++ back :=
        ⟨front ++ before, by simp⟩
      cases eq_of_suffix hpos hj
      refine absurd (inside_cons.mpr ⟨part, ?_, rfl⟩) hout
      exact ⟨before, by simp⟩
  | @jump i _ _ l hl hfound =>
    obtain ⟨-, after, rfl⟩ := atLabel?_eq_some hfound
    obtain ⟨_, hlabel, -⟩ := inside_cons.mp hin
    obtain ⟨hfront, hback⟩ := hhidden l
      (mem_labels.mpr (hlabel.mem (List.mem_cons_self ..)))
    rw [List.append_assoc] at hpos
    rcases inside_or_suffix hpos with hbefore | hafter
    · obtain ⟨_, hsuffix, -⟩ := inside_cons.mp hbefore
      exact absurd (List.mem_flatMap.mpr
        ⟨i, hsuffix.mem (List.mem_cons_self ..), hl⟩) hfront
    · have hsuffix := (inside_or_suffix hafter).resolve_left hout
      exact absurd (List.mem_flatMap.mpr
        ⟨i, hsuffix.mem (List.mem_cons_self ..), hl⟩) hback

/-- **A course that leaves code** runs past its end, or its last step is a
jump from inside to a label that the code was given. -/
theorem Course.leaves (hnodup : (front ++ code ++ back).labels.Nodup)
    (hinner : code.Inner exits)
    (h : (front ++ code ++ back).Course (Inside code back) (code ++ back)
      trace pos) (hout : ¬ Inside code back pos) :
    RunsPast code back trace pos
      ∨ ∃ before i rest l, trace = before ++ [i] ∧ i :: rest <:+ code
        ∧ (front ++ code ++ back).Course (Inside code back) (code ++ back)
          before (i :: (rest ++ back))
        ∧ l ∈ exits ∧ l ∈ i.targets
        ∧ (front ++ code ++ back).atLabel? l = some pos := by
  cases h with
  | nil =>
    -- there is no position outside at the start but that behind no code
    have hcode : code = [] := by_contra fun hne =>
      hout ⟨code, hne, List.suffix_refl _, rfl⟩
    subst hcode
    exact .inl ⟨rfl, rfl, nofun⟩
  | @step before i _ _ hbefore hfrom hflow =>
    obtain ⟨rest, hsuffix, rfl⟩ := inside_cons.mp hfrom
    rcases hflow.inside hnodup hinner hsuffix with
      hin | ⟨rfl, htargets, rfl⟩ | ⟨l, hl, htarget, hfound⟩
    · exact absurd hin hout
    · have hlast := getLast?_of_suffix hsuffix
      refine .inl ⟨rfl, by rw [hlast, List.getLast?_concat], fun j hj => ?_⟩
      rw [hlast] at hj
      cases hj
      exact htargets
    · exact .inr ⟨before, i, rest, l, rfl, hsuffix, hbefore, hl, htarget,
        hfound⟩

/-- **Code goes to a label in returns only**: what goes there is a jump, and
it stands behind an instruction that sets the result. -/
def ReturnsTo (exit : Label) (code : Code) : Prop :=
  ∀ i rest, i :: rest <:+ code → exit ∈ i.targets →
    i = .jump exit ∧ ∃ src, .setResult src :: i :: rest <:+ code

/-- A course to the jump of a return has come through the instruction in
front of it. -/
theorem Course.exists_setResult (hreturns : ReturnsTo exit code)
    (hsuffix : i :: rest <:+ code) (hexit : exit ∈ i.targets) {whole : Code}
    (h : whole.Course (Inside code back) (code ++ back) trace
      (i :: (rest ++ back))) :
    ∃ before src, trace ++ [i] = before ++ [.setResult src, .jump exit] := by
  obtain ⟨rfl, src, hsrc⟩ := hreturns i rest hsuffix hexit
  generalize hpos : .jump exit :: (rest ++ back) = pos at h
  cases h with
  | nil =>
    have hpos : .jump exit :: rest ++ back = code ++ back := hpos
    have hcode := List.append_cancel_right hpos
    exact absurd hsrc.length_le (by simp [← hcode])
  | @step before j _ _ hbefore hfrom hflow =>
    cases hflow with
    | next =>
      obtain ⟨part, hpart, heq⟩ := inside_cons.mp hfrom
      have heq : part = .jump exit :: rest :=
        List.append_cancel_right (heq.symm.trans hpos.symm)
      subst heq
      cases eq_of_suffix hpart hsrc
      exact ⟨before, src, by simp⟩
    | jump _ hfound =>
      obtain ⟨-, _, heq⟩ := atLabel?_eq_some hfound
      rw [← hpos] at heq
      cases heq

/-! ## Ways to leave code -/

section Ways

variable (hnodup : (front ++ code ++ back).labels.Nodup)
include hnodup

/-- **Code that was given no label** is left by running past its end. -/
theorem leavesBy_runsPast (hinner : code.Inner []) :
    (front ++ code ++ back).LeavesBy code back (RunsPast code back) := by
  intro trace pos hcourse hout
  refine (hcourse.leaves hnodup hinner hout).resolve_right ?_
  rintro ⟨_, _, _, l, -, -, -, hl, -⟩
  cases hl

/-- **Code whose last instruction is a jump** is left by jumping. -/
theorem leavesBy_jumpsTo {ifTrue ifFalse : Label}
    (hinner : code.Inner [ifTrue, ifFalse])
    (hends : ∃ i, code.getLast? = some i ∧ i.targets ≠ []) :
    (front ++ code ++ back).LeavesBy code back fun trace pos =>
      JumpsTo (front ++ code ++ back) ifTrue trace pos
        ∨ JumpsTo (front ++ code ++ back) ifFalse trace pos := by
  intro trace pos hcourse hout
  rcases hcourse.leaves hnodup hinner hout with
    hpast | ⟨before, i, _, l, rfl, -, -, hl, htarget, hfound⟩
  · obtain ⟨i, hlast, hi⟩ := hends
    exact absurd (hpast.falls i hlast) hi
  · have hjump : JumpsTo (front ++ code ++ back) l (before ++ [i]) pos :=
      ⟨⟨i, List.getLast?_concat, htarget⟩, hfound⟩
    rcases List.mem_pair.mp hl with rfl | rfl
    · exact .inl hjump
    · exact .inr hjump

/-- **Code that goes to one label, in returns only**, is left by running past
its end or by returning. -/
theorem leavesBy_returns (hinner : code.Inner [exit])
    (hreturns : ReturnsTo exit code) :
    (front ++ code ++ back).LeavesBy code back fun trace pos =>
      RunsPast code back trace pos
        ∨ Returns (front ++ code ++ back) exit trace pos := by
  intro trace pos hcourse hout
  refine (hcourse.leaves hnodup hinner hout).imp_right ?_
  rintro ⟨before, i, rest, l, rfl, hsuffix, hbefore, hl, htarget, hfound⟩
  cases List.mem_singleton.mp hl
  exact ⟨hbefore.exists_setResult hreturns hsuffix htarget, hfound⟩

end Ways

namespace ReturnsTo

theorem of_notMem (h : exit ∉ code.targets) : ReturnsTo exit code :=
  fun i _ hsuffix hexit => absurd
    (List.mem_flatMap.mpr ⟨i, hsuffix.mem (List.mem_cons_self ..), hexit⟩) h

theorem of_inner (h : code.Inner exits) (hcode : exit ∉ code.labels)
    (hexits : exit ∉ exits) : ReturnsTo exit code :=
  of_notMem fun hmem => (h.targets exit hmem).elim hcode hexits

/-- Two pieces of code that go to a label in returns only. -/
theorem append {tail : Code} (h : ReturnsTo exit code)
    (h' : ReturnsTo exit tail) : ReturnsTo exit (code ++ tail) := by
  intro i rest hsuffix hexit
  rcases inside_or_suffix hsuffix with hin | htail
  · obtain ⟨part, hpart, rfl⟩ := inside_cons.mp hin
    obtain ⟨hi, src, first, rfl⟩ := h i part hpart hexit
    exact ⟨hi, src, first, by simp⟩
  · obtain ⟨hi, src, hsrc⟩ := h' i rest htail hexit
    exact ⟨hi, src, hsrc.trans (List.suffix_append code tail)⟩

theorem single (h : exit ∉ i.targets) : ReturnsTo exit [i] :=
  of_notMem fun hmem => h (by simpa using hmem)

theorem cons (hi : exit ∉ i.targets) (h : ReturnsTo exit code) :
    ReturnsTo exit (i :: code) := (single hi).append h

/-- A return. -/
theorem emitReturn (site : Site) (result : Slot) :
    ReturnsTo site.exit (site.emitReturn result) := by
  intro i rest hsuffix hexit
  simp only [Site.emitReturn, List.suffix_cons_iff, List.suffix_nil]
    at hsuffix
  rcases hsuffix with h | h | h <;> cases h
  · cases hexit
  · exact ⟨rfl, result, List.suffix_refl _⟩

end ReturnsTo

end Code

end Primer
