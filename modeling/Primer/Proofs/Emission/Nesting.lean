import Mathlib.Data.List.Basic
import Primer.Proofs.Emission.Parts

/-!
# Segments in segments

A segment *contains* the segments of the fragments inside, at any depth, and
each of them stands somewhere in its code (`Segment.Contains`). What surrounds
such a segment goes to labels that it defines itself, or to those that all of
it was given (`Segment.Contains.surroundings`), which is more than can be said
of the surroundings on one level: there, a part may have been given labels
from further out.

No phrase is left out: for every expression, statement and block that is to be
found in that of a fragment, the segment of the fragment contains one
(`Segment.reaches_of_has`). There may be more than one, since an expression
whose value is branched on may have to be stored first, and the other way
round.
-/

namespace Primer

open SymbolTable

/-! ## Phrases -/

/-- **A phrase**: an expression, a statement or a block. -/
inductive Phrase where
  /-- An expression. -/
  | expr (e : Expr Judged)
  /-- A statement. -/
  | stmt (s : Stmt Judged)
  /-- The statements of a block. -/
  | block (stmts : List (Stmt Judged))

/-- The expressions right in an expression. -/
def Expr.operands : Expr Judged → List (Expr Judged)
  | lit _ _ | var _ _ => []
  | binary _ _ lhs rhs => [lhs, rhs]
  | not _ operand | input _ operand | convert _ _ operand => [operand]
  | call _ _ args => args

namespace Phrase

/-- The phrases right in a statement. -/
def ofStmt : Stmt Judged → List Phrase
  | .introduce _ _ _ value | .assign _ _ value | .update _ _ _ value
  | .ret _ value => [expr value]
  | .pass _ | .retUnit _ => []
  | .print _ args | .call _ _ args => args.map expr
  | .ifElse _ cond thenBlock elseBlock =>
    [expr cond, block thenBlock.stmts, block elseBlock.stmts]
  | .whileLoop _ cond body => [expr cond, block body.stmts]

/-- **The phrases right in a phrase.** -/
def direct : Phrase → List Phrase
  | expr e => e.operands.map expr
  | stmt s => ofStmt s
  | block stmts => stmts.map stmt

/-- **A phrase has a phrase**: itself, or one that is right in a phrase that
it has. -/
inductive Has (x : Phrase) : Phrase → Prop
  /-- Itself. -/
  | self : Has x x
  /-- One that is right in one that it has. -/
  | direct {y z : Phrase} (h : Has x y) (hz : z ∈ y.direct) : Has x z

end Phrase

/-- The phrase of a fragment. -/
def Fragment.phrase : Fragment → Phrase
  | expr e _ => .expr e
  | stmt s => .stmt s
  | block stmts => .block stmts

/-! ## The parts are those of the phrases -/

/-- **A phrase has a part** among some: the segment of a fragment for it. -/
def Part.Cover (parts : List Part) (x : Phrase) : Prop :=
  ∃ p, .nested p ∈ parts ∧ p.fragment.phrase = x

namespace Part.Cover

variable {parts rest : List Part} {x : Phrase}

theorem head {f : Fragment} {t : SymbolTable} :
    Cover (.nested ⟨f, t⟩ :: parts) f.phrase :=
  ⟨⟨f, t⟩, List.mem_cons_self .., rfl⟩

theorem tail {part : Part} (h : Cover parts x) : Cover (part :: parts) x :=
  h.imp fun _ => And.imp_left (List.mem_cons_of_mem part)

theorem appendRight (h : Cover parts x) : Cover (parts ++ rest) x :=
  h.imp fun _ => And.imp_left (List.mem_append_left rest)

theorem appendLeft (h : Cover rest x) : Cover (parts ++ rest) x :=
  h.imp fun _ => And.imp_left (List.mem_append_right parts)

end Part.Cover

section Emitter

variable {site : Site}

open Part.Cover

/-- Each argument has a part. -/
theorem Expr.cover_argParts {args : List (Expr Judged)} {arg : Expr Judged}
    (harg : arg ∈ args) (t : SymbolTable) :
    Part.Cover ((argParts site args).run t).1.1 (.expr arg) := by
  induction args generalizing t with
  | nil => cases harg
  | cons first args ih =>
    rcases List.mem_cons.mp harg with rfl | harg
    · exact head (f := .expr arg (.store _))
    · exact tail (ih harg _)

/-- The value that is written has a part. -/
theorem Site.cover_printParts (arg : Expr Judged) (t : SymbolTable) :
    Part.Cover ((site.printParts arg).run t).1 (.expr arg) := by
  rw [printParts]
  cases arg.ty with
  | int | str => exact head (f := .expr arg (.store _))
  | bool => exact head (f := .expr arg (.branch _ _))
  | unit => exact head (f := .expr arg (.store _))

/-- Each value that is written has a part. -/
theorem Site.cover_moreParts {args : List (Expr Judged)} {arg : Expr Judged}
    (harg : arg ∈ args) (t : SymbolTable) :
    Part.Cover ((site.moreParts args).run t).1 (.expr arg) := by
  induction args generalizing t with
  | nil => cases harg
  | cons first args ih =>
    rcases List.mem_cons.mp harg with rfl | harg
    · exact appendRight (appendLeft (site.cover_printParts arg _))
    · exact appendLeft (ih harg _)

/-- Each value that is written on a line has a part. -/
theorem Site.cover_lineParts {args : List (Expr Judged)} {arg : Expr Judged}
    (harg : arg ∈ args) (t : SymbolTable) :
    Part.Cover ((site.lineParts args).run t).1 (.expr arg) := by
  cases args with
  | nil => cases harg
  | cons first args =>
    rcases List.mem_cons.mp harg with rfl | harg
    · exact appendRight (site.cover_printParts arg _)
    · exact appendLeft (site.cover_moreParts harg _)

/-- Each statement of a block has a part. -/
theorem Stmt.cover_blockParts {stmts : List (Stmt Judged)}
    {stmt : Stmt Judged} (hstmt : stmt ∈ stmts) (t : SymbolTable) :
    Part.Cover ((blockParts site stmts).run t).1 (.stmt stmt) := by
  induction stmts generalizing t with
  | nil => cases hstmt
  | cons first stmts ih =>
    rcases List.mem_cons.mp hstmt with rfl | hstmt
    · exact head (f := .stmt stmt)
    · exact tail (ih hstmt _)

end Emitter

/-! ## One segment -/

namespace Segment

variable (site : Site) (s : Segment)

/-- **A label is taken while a segment is emitted**: the scope of the body has
it afterwards, among those that it did not have before. -/
def TakesLabel (l : Label) : Prop :=
  ∃ new, ((s.stop site).scope site.scope).positions
      = new ++ (s.start.scope site.scope).positions ∧ l ∈ new

/-- A segment is inside a body and leaves for the labels that it was given. -/
theorem inner : (s.code site).Inner (s.fragment.exits site) := by
  obtain ⟨f, t⟩ := s
  cases f with
  | expr e dest => exact (e.emits site dest t).inner
  | stmt s => exact (s.emits site t).inner
  | block stmts => exact (Stmt.emitsAll site stmts t).inner

variable {site s}

/-- **Every label of a segment is taken while it is emitted.** -/
theorem takesLabel_of_mem (hbody : s.start.IsBody site.scope) {l : Label}
    (hl : l ∈ (s.code site).labels) : s.TakesLabel site l := by
  have htakes : Takes site.scope s.start (s.stop site) (s.code site).labels :=
    s.fragment.takes_emit s.start
  obtain ⟨new, hnew, -, -⟩ := htakes.grows.positions hbody.1 hbody.2
  refine ⟨new, hnew, List.count_pos_iff.mp ?_⟩
  have hcount := htakes.counts hbody l
  rw [hnew, List.count_append] at hcount
  have := List.count_pos_iff.mpr hl
  omega

end Segment

/-! ## Segments in segments -/

namespace Part

variable {site : Site}

theorem targets_subset (part : Part) :
    (part.code site).targets ⊆ (part.code site).labels ++ part.exits site := by
  cases part with
  | own code => exact List.subset_append_right _ _
  | nested s =>
    exact fun l hl => List.mem_append.mpr ((s.inner site).targets l hl)

/-- Parts go to their own labels or to those that they may leave for. -/
theorem targets_codeOf_subset {parts : List Part} {exits : List Label}
    (h : ∀ part ∈ parts, part.exits site ⊆ exits) :
    (codeOf site parts).targets ⊆ (codeOf site parts).labels ++ exits := by
  induction parts with
  | nil => exact List.nil_subset _
  | cons part parts ih =>
    obtain ⟨hpart, hparts⟩ := List.forall_mem_cons.mp h
    have hfirst : (part.code site).targets
        ⊆ (part.code site).labels ++ part.exits site := part.targets_subset
    have hrest := ih hparts
    rw [codeOf_cons, Code.targets_append, Code.labels_append]
    grind

/-- Labels of instructions of their own are labels of the parts. -/
theorem labelsOf_subset (parts : List Part) :
    labelsOf parts ⊆ (codeOf site parts).labels := by
  induction parts with
  | nil => exact List.nil_subset _
  | cons part parts ih =>
    rw [codeOf_cons, Code.labels_append]
    cases part with
    | own code =>
      exact List.append_subset.mpr ⟨List.subset_append_left _ _,
        List.Subset.trans ih (List.subset_append_right _ _)⟩
    | nested s => exact List.Subset.trans ih (List.subset_append_right _ _)

end Part

namespace Segment

/-- **A segment contains another** with this code of it in front and that
behind: it is itself, or it is nested in one that it contains. -/
inductive Contains (site : Site) (root : Segment) :
    Code → Segment → Code → Prop
  /-- A segment contains itself. -/
  | self : Contains site root [] root []
  /-- It contains what is nested in a segment that it contains. -/
  | nested {before after : Code} {s part : Segment} {left right : List Part}
      (h : Contains site root before s after)
      (hparts : s.parts site = left ++ .nested part :: right) :
    Contains site root (before ++ Part.codeOf site left) part
      (Part.codeOf site right ++ after)

namespace Contains

variable {site : Site} {root s : Segment} {before after : Code}

/-- **A segment that is contained stands in the code.** -/
theorem code_eq (h : root.Contains site before s after) :
    root.code site = before ++ s.code site ++ after := by
  induction h with
  | self => simp
  | @nested before after s part left right _ hparts ih =>
    have hcode := (s.make site).code_eq
    rw [hparts, Part.codeOf_append, Part.codeOf_cons] at hcode
    rw [ih, ← hcode]
    simp [Part.code]

theorem grows (h : root.Contains site before s after) :
    Grows site.scope root.start s.start := by
  induction h with
  | self => exact .refl _
  | @nested _ _ s part _ _ _ hparts ih =>
    exact ih.trans ((s.make site).grows part (by simp [hparts]))

/-- **What surrounds a segment goes to labels that it defines itself**, or to
those that all of it was given, and so does the segment. -/
theorem surroundings (h : root.Contains site before s after) :
    (before ++ after).targets
        ⊆ (before ++ after).labels ++ root.fragment.exits site
      ∧ s.fragment.exits site
        ⊆ (before ++ after).labels ++ root.fragment.exits site := by
  induction h with
  | self => exact ⟨List.nil_subset _, List.Subset.refl _⟩
  | @nested before after s part left right _ hparts ih =>
    obtain ⟨houter, hgiven⟩ := ih
    have hmake := (s.make site).exits
    rw [hparts, Part.labelsOf_append] at hmake
    obtain ⟨hleft, hrest⟩ := List.forall_mem_append.mp hmake
    obtain ⟨hpart, hright⟩ := List.forall_mem_cons.mp hrest
    -- all that the parts may leave for is there outside
    let outer := (before ++ Part.codeOf site left
      ++ (Part.codeOf site right ++ after)).labels ++ root.fragment.exits site
    obtain ⟨hold, hfirst, hlast⟩ :
        (before ++ after).labels ++ root.fragment.exits site ⊆ outer
          ∧ (Part.codeOf site left).labels ⊆ outer
          ∧ (Part.codeOf site right).labels ⊆ outer := by
      simp only [outer, Code.labels_append]
      refine ⟨?_, ?_, ?_⟩ <;> grind
    have hmore : Part.labelsOf left ++ Part.labelsOf (.nested part :: right)
        ++ s.fragment.exits site ⊆ outer :=
      List.append_subset.mpr ⟨List.append_subset.mpr
        ⟨List.Subset.trans (Part.labelsOf_subset left) hfirst,
          List.Subset.trans (Part.labelsOf_subset right) hlast⟩,
        List.Subset.trans hgiven hold⟩
    refine ⟨?_, List.Subset.trans hpart hmore⟩
    have hsurround := List.Subset.trans houter hold
    rw [Code.targets_append, List.append_subset] at hsurround
    simp only [Code.targets_append, List.append_subset]
    exact ⟨⟨hsurround.1, List.Subset.trans (Part.targets_codeOf_subset hleft)
        (List.append_subset.mpr ⟨hfirst, hmore⟩)⟩,
      List.Subset.trans (Part.targets_codeOf_subset hright)
        (List.append_subset.mpr ⟨hlast, hmore⟩), hsurround.2⟩

/-- **What a segment contains it contains**, if it is contained. -/
theorem trans {part : Segment} {left right : Code}
    (h : root.Contains site before s after)
    (h' : s.Contains site left part right) :
    root.Contains site (before ++ left) part (right ++ after) := by
  induction h' with
  | self => simpa using h
  | nested _ hparts ih =>
    have hnested := ih.nested hparts
    simpa only [List.append_assoc] using hnested

end Contains

/-! ## No phrase is left out -/

/-- **A segment reaches a phrase**: it contains a segment for it. -/
def Reaches (site : Site) (s : Segment) (x : Phrase) : Prop :=
  ∃ before p after, s.Contains site before p after ∧ p.fragment.phrase = x

section

variable {site : Site} {s p : Segment} {x : Phrase}

theorem contains_of_mem (h : .nested p ∈ s.parts site) :
    ∃ before after, s.Contains site before p after := by
  obtain ⟨left, right, hparts⟩ := List.append_of_mem h
  exact ⟨_, _, .nested .self hparts⟩

theorem reaches_of_cover (h : Part.Cover (s.parts site) x) :
    s.Reaches site x := by
  obtain ⟨p, hp, hx⟩ := h
  obtain ⟨before, after, hcontains⟩ := contains_of_mem hp
  exact ⟨before, p, after, hcontains, hx⟩

theorem Reaches.of_mem (h : p.Reaches site x)
    (hp : .nested p ∈ s.parts site) : s.Reaches site x := by
  obtain ⟨_, _, hcontains⟩ := contains_of_mem hp
  obtain ⟨_, q, _, hq, hx⟩ := h
  exact ⟨_, q, _, hcontains.trans hq, hx⟩

variable {e : Expr Judged}

/-- From an expression whose code stores the value a phrase is always reached,
if it is reached where the value is stored. -/
theorem reaches_of_storing {value : Slot → Emit (List Part)}
    (hparts : e.emitParts site = site.storingParts e value)
    (h : ∀ dst t, Part.Cover ((value dst).run t).1 x) (dest : Destination)
    (t : SymbolTable) : Reaches site ⟨.expr e dest, t⟩ x := by
  have hstore : ∀ dst t, Reaches site ⟨.expr e (.store dst), t⟩ x := by
    intro dst t
    refine reaches_of_cover ?_
    rw [parts, Fragment.parts, hparts]
    exact h dst t
  cases dest with
  | store dst => exact hstore dst t
  | branch ifTrue ifFalse =>
    obtain ⟨p, hp, hphrase⟩ : ∃ temp t',
        .nested ⟨.expr e (.store temp), t'⟩
          ∈ parts site ⟨.expr e (.branch ifTrue ifFalse), t⟩ := by
      rw [parts, Fragment.parts, hparts]
      exact ⟨_, _, List.mem_cons_self ..⟩
    exact (hstore _ _).of_mem hphrase

/-- From an expression whose code branches on the value a phrase is always
reached, if it is reached where the value is branched on. -/
theorem reaches_of_branching {condition : Label → Label → Emit (List Part)}
    (hparts : e.emitParts site = site.branchingParts e condition)
    (h : ∀ ifTrue ifFalse t,
      Part.Cover ((condition ifTrue ifFalse).run t).1 x)
    (dest : Destination) (t : SymbolTable) :
    Reaches site ⟨.expr e dest, t⟩ x := by
  have hbranch : ∀ ifTrue ifFalse t,
      Reaches site ⟨.expr e (.branch ifTrue ifFalse), t⟩ x := by
    intro ifTrue ifFalse t
    refine reaches_of_cover ?_
    rw [parts, Fragment.parts, hparts]
    exact h ifTrue ifFalse t
  cases dest with
  | branch ifTrue ifFalse => exact hbranch ifTrue ifFalse t
  | store dst =>
    obtain ⟨yes, no, t', hmem⟩ : ∃ yes no t',
        .nested ⟨.expr e (.branch yes no), t'⟩
          ∈ parts site ⟨.expr e (.store dst), t⟩ := by
      rw [parts, Fragment.parts, hparts]
      exact ⟨_, _, _, List.mem_cons_self ..⟩
    exact (hbranch _ _ _).of_mem hmem

/-- **The operands of an expression are reached.** -/
theorem reaches_operand {operand : Expr Judged} (h : operand ∈ e.operands)
    (dest : Destination) (t : SymbolTable) :
    Reaches site ⟨.expr e dest, t⟩ (.expr operand) := by
  match e with
  | .lit _ _ | .var _ _ => cases h
  | .binary note (.arith op) lhs rhs =>
    refine reaches_of_storing rfl (fun dst t => ?_) dest t
    rcases List.mem_pair.mp h with rfl | rfl
    · exact .head (f := .expr _ (.store _))
    · exact .tail (.head (f := .expr _ (.store _)))
  | .binary note (.compare op) lhs rhs =>
    refine reaches_of_branching rfl (fun ifTrue ifFalse t => ?_) dest t
    rcases List.mem_pair.mp h with rfl | rfl
    · exact .head (f := .expr _ (.store _))
    · exact .tail (.head (f := .expr _ (.store _)))
  | .binary note (.logic .and) lhs rhs | .binary note (.logic .or) lhs rhs =>
    refine reaches_of_branching rfl (fun ifTrue ifFalse t => ?_) dest t
    rcases List.mem_pair.mp h with rfl | rfl
    · exact .head (f := .expr _ (.branch _ _))
    · exact .tail (.tail (.head (f := .expr _ (.branch _ _))))
  | .not note operand =>
    cases List.mem_singleton.mp h
    refine reaches_of_branching rfl (fun ifTrue ifFalse t => ?_) dest t
    exact .head (f := .expr _ (.branch _ _))
  | .input note prompt =>
    cases List.mem_singleton.mp h
    refine reaches_of_storing rfl (fun dst t => ?_) dest t
    exact .head (f := .expr _ (.store _))
  | .convert note target operand =>
    cases List.mem_singleton.mp h
    refine reaches_of_storing rfl (fun dst t => ?_) dest t
    cases target with
    | toInt => cases operand.ty with
      | str | int | bool | unit => exact .head (f := .expr _ (.store _))
    | toStr => cases operand.ty with
      | bool => exact .head (f := .expr _ (.branch _ _))
      | str | int | unit => exact .head (f := .expr _ (.store _))
  | .call note callee args =>
    refine reaches_of_storing rfl (fun dst t => ?_) dest t
    exact (Expr.cover_argParts h t).appendRight

/-- **The phrases right in a statement are reached.** -/
theorem reaches_ofStmt {stmt : Stmt Judged} (h : x ∈ Phrase.ofStmt stmt)
    (t : SymbolTable) : Reaches site ⟨.stmt stmt, t⟩ x := by
  refine reaches_of_cover ?_
  match stmt with
  | .introduce _ name _ value | .assign _ name value =>
    cases List.mem_singleton.mp h
    exact .head (f := .expr _ (.store _))
  | .update _ _ name operand =>
    cases List.mem_singleton.mp h
    exact .tail (.head (f := .expr _ (.store _)))
  | .pass _ | .retUnit _ => cases h
  | .ret _ value =>
    cases List.mem_singleton.mp h
    exact .head (f := .expr _ (.store _))
  | .print _ args =>
    obtain ⟨arg, harg, rfl⟩ := List.mem_map.mp h
    exact (site.cover_lineParts harg t).appendRight
  | .call _ callee args =>
    obtain ⟨arg, harg, rfl⟩ := List.mem_map.mp h
    exact (Expr.cover_argParts harg t).appendRight
  | .ifElse _ cond thenBlock elseBlock =>
    simp only [Phrase.ofStmt, List.mem_cons, List.not_mem_nil, or_false] at h
    rcases h with rfl | rfl | rfl
    · exact .head (f := .expr _ (.branch _ _))
    · exact .tail (.tail (.head (f := .block _)))
    · exact .tail (.tail (.tail (.tail (.head (f := .block _)))))
  | .whileLoop _ cond body =>
    rcases List.mem_pair.mp h with rfl | rfl
    · exact .tail (.head (f := .expr _ (.branch _ _)))
    · exact .tail (.tail (.tail (.head (f := .block _))))

/-- **The phrases right in that of a segment are reached.** -/
theorem reaches_of_mem_direct (h : x ∈ s.fragment.phrase.direct) :
    s.Reaches site x := by
  obtain ⟨f, t⟩ := s
  match f with
  | .expr e dest =>
    obtain ⟨operand, hoperand, rfl⟩ := List.mem_map.mp h
    exact reaches_operand hoperand dest t
  | .stmt stmt => exact reaches_ofStmt h t
  | .block stmts =>
    obtain ⟨stmt, hstmt, rfl⟩ := List.mem_map.mp h
    exact reaches_of_cover (Stmt.cover_blockParts hstmt t)

/-- **All phrases in that of a segment are reached**, at any depth. -/
theorem reaches_of_has (h : s.fragment.phrase.Has x) : s.Reaches site x := by
  induction h with
  | self => exact ⟨[], s, [], .self, rfl⟩
  | direct _ hz ih =>
    obtain ⟨_, p, _, hp, rfl⟩ := ih
    obtain ⟨_, q, _, hq, hz⟩ : p.Reaches site _ := reaches_of_mem_direct hz
    exact ⟨_, q, _, hp.trans hq, hz⟩

end

end Segment

end Primer
