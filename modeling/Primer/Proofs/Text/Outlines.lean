import Primer.Text.Outline
import Primer.Proofs.Text.Shown

/-!
# A drawing tells the outline

An outline can be read off its drawing, whatever its texts are, as long as
they have no line ends (`Outline.render_inj`). The levels are not counted for
this. What stands on a line after that line's beginning is a fork on the line
of a sibling and a rail on the line of a descendant, and no fork begins like
a rail. So the lines of a node's descendants end where the first line follows
that does not begin with the node's rail, and what comes after them is told
from them: no drawing of children is the beginning of another
(`Outline.forestLines_append_inj`).

Which rail it is, is told by the node's own fork. A text may well begin with
what looks like a fork or a rail. It stands after a fork, and is never
mistaken.
-/

namespace Primer.Text

namespace Outline

/-! ## Forks and rails -/

/-- A fork tells whether it is the last, and what stands after it. -/
theorem fork_append_inj {last last' : Bool} {s s' : String}
    (h : fork last ++ s = fork last' ++ s') : last = last' ∧ s = s' := by
  have hchars := congrArg String.toList h
  rw [String.toList_append, String.toList_append] at hchars
  cases last <;> cases last'
  case false.true | true.false =>
    exact absurd (List.cons.inj hchars).1 (by decide)
  all_goals exact ⟨rfl, (String.append_right_inj _).mp h⟩

/-- **No fork begins like a rail.** -/
theorem fork_append_ne_rail_append (last last' : Bool) (s s' : String) :
    fork last ++ s ≠ rail last' ++ s' := by
  intro h
  have hchars := congrArg String.toList h
  rw [String.toList_append, String.toList_append] at hchars
  cases last <;> cases last' <;>
    exact absurd (List.cons.inj hchars).1 (by decide)

/-! ## Lines under a node -/

/-- **Whether a line is one under a node** whose descendants' lines begin with
`lead`: a fork or a rail comes next. -/
def IsUnder (lead line : String) : Prop :=
  ∃ (last : Bool) (rest : String),
    line = lead ++ (fork last ++ rest) ∨ line = lead ++ (rail last ++ rest)

theorem not_isUnder_fork (lead : String) (last last' : Bool) (s : String) :
    ¬ IsUnder (lead ++ rail last) (lead ++ fork last' ++ s) := by
  rintro ⟨l, rest, h | h⟩ <;>
    rw [String.append_assoc, String.append_assoc] at h <;>
    exact fork_append_ne_rail_append _ _ _ _
      ((String.append_right_inj _).mp h)

theorem not_isUnder_child {lead line : String} (h : ¬ IsUnder lead line)
    (last : Bool) : ¬ IsUnder (lead ++ rail last) line := by
  rintro ⟨l, rest, rfl | rfl⟩
  · exact h ⟨last, fork l ++ rest, .inr String.append_assoc⟩
  · exact h ⟨last, rail l ++ rest, .inr String.append_assoc⟩

/-- **Whether lines are past a node**: the first of them, if there is one, is
not under it. -/
def IsPast (lead : String) (lines : List String) : Prop :=
  ∀ line ∈ lines.head?, ¬ IsUnder lead line

/-- What is past all children but the first, with what is past their parent,
is past the first. -/
theorem isPast_forestLines {lead : String} {rest : List String}
    (h : IsPast lead rest) (last : Bool) (others : List Outline) :
    IsPast (lead ++ rail last) (forestLines lead others ++ rest) := by
  cases others with
  | nil => exact fun line hline => not_isUnder_child (h line hline) last
  | cons child others =>
    obtain ⟨text, children⟩ := child
    intro line hline
    cases hline
    exact not_isUnder_fork lead last _ text

theorem not_isPast_cons {lead text : String} (children others : List Outline)
    (rest : List String) :
    ¬ IsPast lead (forestLines lead (node text children :: others) ++ rest) :=
  fun h => h _ rfl ⟨others.isEmpty, text, .inl String.append_assoc⟩

/-! ## Reading a drawing -/

/-- **No drawing of children is the beginning of another**, up to lines that
are past their parent. -/
theorem forestLines_append_inj {lead : String} :
    {cs cs' : List Outline} → {rest rest' : List String} →
    IsPast lead rest → IsPast lead rest' →
    forestLines lead cs ++ rest = forestLines lead cs' ++ rest' →
    cs = cs' ∧ rest = rest'
  | [], [], _, _, _, _, h => ⟨rfl, h⟩
  | [], node _ children :: others, _, rest', hrest, _, h => by
    rw [forestLines, List.nil_append] at h
    exact absurd (h ▸ hrest) (not_isPast_cons children others rest')
  | node _ children :: others, [], rest, _, _, hrest', h => by
    have hsame := h.symm
    rw [forestLines, List.nil_append] at hsame
    exact absurd (hsame ▸ hrest') (not_isPast_cons children others rest)
  | node text children :: others, node text' children' :: others',
      rest, rest', hrest, hrest', h => by
    rw [forestLines, forestLines, branchLines, branchLines] at h
    rw [List.append_assoc, List.append_assoc] at h
    obtain ⟨hline, hlines⟩ := List.cons.inj h
    rw [String.append_assoc, String.append_assoc] at hline
    obtain ⟨hlast, rfl⟩ :=
      fork_append_inj ((String.append_right_inj lead).mp hline)
    rw [hlast] at hlines
    obtain ⟨rfl, hothers⟩ := forestLines_append_inj
      (isPast_forestLines hrest _ others)
      (isPast_forestLines hrest' _ others') hlines
    obtain ⟨rfl, hrests⟩ := forestLines_append_inj hrest hrest' hothers
    exact ⟨rfl, hrests⟩

/-- **The lines of an outline tell it.** -/
theorem lines_inj {o o' : Outline} (h : o.lines = o'.lines) : o = o' := by
  obtain ⟨text, children⟩ := o
  obtain ⟨text', children'⟩ := o'
  obtain ⟨rfl, hlines⟩ := List.cons.inj h
  obtain ⟨rfl, -⟩ := @forestLines_append_inj "" children children' [] []
    nofun nofun (congrArg (· ++ []) hlines)
  rfl

/-! ## The drawing as one text -/

/-- **An outline without line ends** in its texts. -/
inductive IsFlat : Outline → Prop
  /-- A text without line ends, over outlines without. -/
  | node {text : String} {children : List Outline}
    (htext : '\n' ∉ text.toList) (hchildren : ∀ c ∈ children, IsFlat c) :
    IsFlat (node text children)

theorem newline_notMem_append {lead : String} (h : '\n' ∉ lead.toList)
    (last : Bool) : '\n' ∉ (lead ++ fork last).toList
      ∧ '\n' ∉ (lead ++ rail last).toList := by
  rw [String.toList_append, String.toList_append, List.mem_append,
    List.mem_append]
  cases last <;> exact ⟨not_or.mpr ⟨h, by decide⟩, not_or.mpr ⟨h, by decide⟩⟩

/-- The lines of children have no line ends if none has, whatever they stand
after. -/
theorem newline_notMem_forestLines {cs : List Outline}
    (h : ∀ c ∈ cs, ∀ (lead : String) (last : Bool), '\n' ∉ lead.toList →
      ∀ line ∈ c.branchLines lead last, '\n' ∉ line.toList)
    {lead : String} (hlead : '\n' ∉ lead.toList) :
    ∀ line ∈ forestLines lead cs, '\n' ∉ line.toList := by
  induction cs with
  | nil => nofun
  | cons c others ih =>
    obtain ⟨hfirst, hothers⟩ := List.forall_mem_cons.mp h
    rw [forestLines]
    exact List.forall_mem_append.mpr ⟨hfirst lead _ hlead, ih hothers⟩

/-- No line of a child has a line end in it. -/
theorem IsFlat.newline_notMem_branchLines {o : Outline} (h : o.IsFlat)
    (lead : String) (last : Bool) (hlead : '\n' ∉ lead.toList) :
    ∀ line ∈ o.branchLines lead last, '\n' ∉ line.toList := by
  induction h generalizing lead last with
  | node htext _ ih =>
    obtain ⟨hfork, hrail⟩ := newline_notMem_append hlead last
    rw [branchLines]
    refine List.forall_mem_cons.mpr ⟨?_, newline_notMem_forestLines ih hrail⟩
    rw [String.toList_append, List.mem_append]
    exact not_or.mpr ⟨hfork, htext⟩

theorem IsFlat.newline_notMem_lines {o : Outline} (h : o.IsFlat) :
    ∀ line ∈ o.lines, '\n' ∉ line.toList := by
  obtain ⟨htext, hchildren⟩ := h
  exact List.forall_mem_cons.mpr ⟨htext, newline_notMem_forestLines
    (fun c hc => (hchildren c hc).newline_notMem_branchLines) List.not_mem_nil⟩

/-- **A drawing tells the outline**, if its texts have no line ends. -/
theorem render_inj {o o' : Outline} (h : o.IsFlat) (h' : o'.IsFlat)
    (heq : o.render = o'.render) : o = o' :=
  lines_inj (joinLines_inj h.newline_notMem_lines h'.newline_notMem_lines heq)

end Outline

end Primer.Text
