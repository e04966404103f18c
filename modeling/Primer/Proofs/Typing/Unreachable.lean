import Primer.Proofs.Typing.Causes

/-!
# What is refused as unreachable

A statement is refused as unreachable if it comes after code that always
returns. By then the check has been through that code with success, so its
summary is exact, and no structural path goes on from it to the statement.

The error may come from any depth: from a block in a block of a body. It comes
from a block, though, and from nowhere else. All other checks refuse for other
causes (`Check.Spares`), most of them because they have nothing to do with
returns.
-/

namespace Primer

/-! ## Other checks -/

/-- **A check that refuses nothing as unreachable.** -/
def Check.Spares {β : Type} (x : Check β) : Prop :=
  ∀ span, x ≠ .error ⟨.unreachable, span⟩

namespace Check.Spares

variable {β γ : Type}

theorem refuse {cause : Cause} {span : Span} (h : cause ≠ .unreachable) :
    Spares (Primer.refuse cause span : Check β) := by
  intro _ heq
  cases heq
  exact h rfl

theorem require {holds : Bool} {cause : Cause} {span : Span}
    (h : cause ≠ .unreachable) : Spares (Primer.require holds cause span) := by
  unfold Primer.require
  split
  · nofun
  · exact refuse h

/-- What is unreachable is refused by the second of two checks if the first
one spares it. -/
theorem of_bind {x : Check β} {f : β → Check γ} {span : Span}
    (h : (x >>= f) = .error ⟨.unreachable, span⟩) (hx : x.Spares) :
    ∃ b, x = .ok b ∧ f b = .error ⟨.unreachable, span⟩ := by
  cases x with
  | error e =>
    cases h
    exact absurd rfl (hx span)
  | ok b => exact ⟨b, rfl, h⟩

end Check.Spares

theorem Check.Ends.spares {β : Type} {Good : β → Prop} {x : Check β}
    (h : x.Ends Good (·.concernsReturns = false)) : x.Spares := by
  intro span hx
  cases h.error hx

/-- Two checks, one after the other, fail in the first one or in the second
one. -/
theorem bind_eq_error {ε β γ : Type} {x : Except ε β} {f : β → Except ε γ}
    {e : ε} (h : (x >>= f) = .error e) :
    x = .error e ∨ ∃ b, x = .ok b ∧ f b = .error e := by
  cases x with
  | error e' =>
    cases h
    exact .inl rfl
  | ok b => exact .inr ⟨b, rfl, h⟩

/-! ## Statements -/

theorem Returns.merge_spares {one other : Returns} {span : Span} :
    (one.merge other span).Spares := by
  intro s h
  cases one <;> cases other <;> simp only [merge] at h <;>
    (try split at h) <;> cases h

/-- **Only what comes after code that always returns is unreachable.** -/
theorem Returns.sequence_unreachable {first second : Returns} {span s : Span}
    (h : first.sequence second s = .error ⟨.unreachable, span⟩) :
    s = span ∧ ∃ ty, first = .always ty := by
  cases first with
  | never => cases h
  | always ty => cases h; exact ⟨rfl, ty, rfl⟩
  | maybe expected =>
    cases second with
    | never => cases h
    | always found | maybe found =>
      simp only [sequence] at h
      split at h <;> cases h

namespace Stmt

variable {sigs : Signatures} {expected : Expected}

/-- **The statement that is refused as unreachable**: it is at some position
among the statements, and no path through those before it goes on to it. -/
def HasUnreachable (before stmts : List (Stmt Span)) (span : Span) : Prop :=
  ∃ pos others stmt, locate? before stmts pos = some (others, stmt)
    ∧ stmt.span = span ∧ ¬CanAll others .goesOn

theorem start_exact : Returns.never.Exact expected
    (CanAll ([] : List (Stmt Span)) .returns)
    (CanAll ([] : List (Stmt Span)) .goesOn) :=
  Returns.Exact.start.congr (by simp [canAll_nil]) (by simp [canAll_nil])

mutual

/-- **What is refused as unreachable in a statement** is in one of its blocks,
and no path leads to it there. -/
theorem check_unreachable {scope : Scope} {stmt : Stmt Span} {span : Span}
    (h : stmt.check sigs expected scope = .error ⟨.unreachable, span⟩)
    (before : List (Stmt Span)) : HasUnreachable before [stmt] span := by
  match stmt with
  | .introduce _ _ _ _ | .assign _ _ _ | .update _ _ _ _ | .pass _
  | .print _ _ | .call _ _ _ =>
    exact absurd h ((check_ends_of_isStraight rfl).spares span)
  | .ret _ value =>
    cases expected with
    | none => cases h
    | some ty =>
      obtain ⟨_, -, h⟩ := value.check_ignoresReturns.spares.of_bind h
      obtain ⟨_, -, h⟩ := Check.Spares.of_bind h (.require nofun)
      cases h
  | .retUnit _ =>
    cases expected with
    | none => cases h
    | some ty =>
      obtain ⟨_, -, h⟩ := Check.Spares.of_bind h (.require nofun)
      cases h
  | .ifElse _ _ ⟨_, _⟩ ⟨_, _⟩ =>
    obtain ⟨_, -, h⟩ := checkCondition_ignoresReturns.spares.of_bind h
    rcases bind_eq_error h with hthen | ⟨_, -, h⟩
    · obtain ⟨pos, found⟩ := checkAll_unreachable start_exact hthen
      exact ⟨.inThen pos, found⟩
    rcases bind_eq_error h with helse | ⟨_, -, h⟩
    · obtain ⟨pos, found⟩ := checkAll_unreachable start_exact helse
      exact ⟨.inElse pos, found⟩
    obtain ⟨_, -, h⟩ := Returns.merge_spares.of_bind h
    cases h
  | .whileLoop _ _ ⟨_, _⟩ =>
    obtain ⟨_, -, h⟩ := checkCondition_ignoresReturns.spares.of_bind h
    rcases bind_eq_error h with hbody | ⟨_, -, h⟩
    · obtain ⟨pos, found⟩ := checkAll_unreachable start_exact hbody
      exact ⟨.inBody pos, found⟩
    cases h

/-- **What is refused as unreachable among statements** comes after code that
always returns. -/
theorem checkAll_unreachable {scope : Scope} {summary : Returns}
    {seen stmts : List (Stmt Span)} {span : Span}
    (hsummary : summary.Exact expected (CanAll seen .returns)
      (CanAll seen .goesOn))
    (h : checkAll sigs expected scope summary stmts
      = .error ⟨.unreachable, span⟩) : HasUnreachable seen stmts span := by
  match stmts with
  | [] => cases h
  | stmt :: stmts =>
    rcases bind_eq_error h with hfirst | ⟨_, hfirst, h⟩
    · obtain ⟨pos, found⟩ := check_unreachable hfirst seen
      obtain ⟨others, found, hpos, hfound⟩ := found
      exact ⟨pos, others, found, locate?_cons.mpr (.inr hpos), hfound⟩
    rcases bind_eq_error h with hthen | ⟨_, hthen, h⟩
    · obtain ⟨hspan, ty, rfl⟩ := Returns.sequence_unreachable hthen
      exact ⟨.here, seen, stmt, rfl, hspan, hsummary.2.2⟩
    rcases bind_eq_error h with hrest | ⟨_, -, h⟩
    · have hmid := hsummary.sequence (check_exact hfirst)
        (Returns.sequence_eq_ok.mp hthen)
      obtain ⟨pos, found⟩ := checkAll_unreachable (hmid.congr
        canAll_returns_concat canAll_goesOn_concat) hrest
      exact ⟨.later pos, found⟩
    cases h

end

end Stmt

/-! ## Definitions and programs -/

namespace Definition

variable {sigs : Signatures}

theorem expectReturn_spares {name : Ident} {ret : Ty} {returns : Returns}
    {span : Span} : (expectReturn name ret returns span).Spares := by
  cases returns with
  | never | maybe => exact .refuse nofun
  | always ty => exact .require nofun

/-- **What is refused as unreachable in a definition** is in its body. -/
theorem check_unreachable {d : Definition Span} {span : Span}
    (h : d.check sigs = .error ⟨.unreachable, span⟩) :
    Stmt.HasUnreachable [] d.body.stmts span := by
  obtain ⟨_, -, h⟩ := bindParams_ignoresReturns.spares.of_bind h
  rcases bind_eq_error h with hbody | ⟨_, -, h⟩
  · rcases bind_eq_error hbody with hstmts | ⟨_, -, hstmts⟩
    · exact Stmt.checkAll_unreachable Stmt.start_exact hstmts
    · cases hstmts
  obtain ⟨_, -, h⟩ := expectReturn_spares.of_bind h
  cases h

/-- What is refused as unreachable in definitions is in one of their bodies.
-/
theorem checkAll_unreachable {ds : List (Definition Span)} {span : Span}
    (h : checkAll sigs ds = .error ⟨.unreachable, span⟩) :
    ∃ d ∈ ds, Stmt.HasUnreachable [] d.body.stmts span := by
  induction ds with
  | nil => cases h
  | cons d ds ih =>
    rcases bind_eq_error h with hfirst | ⟨_, -, h⟩
    · exact ⟨d, List.mem_cons_self .., check_unreachable hfirst⟩
    rcases bind_eq_error h with hrest | ⟨_, -, h⟩
    · obtain ⟨d', hd', hfound⟩ := ih hrest
      exact ⟨d', List.mem_cons_of_mem _ hd', hfound⟩
    cases h

end Definition

/-- **What is refused as unreachable in a program** is in one of its bodies,
and no path leads to it there. -/
theorem Program.check_unreachable {p : Program Span} {span : Span}
    (h : p.check = .error ⟨.unreachable, span⟩) :
    ∃ d ∈ p.bodies, Stmt.HasUnreachable [] d.body.stmts span := by
  obtain ⟨_, -, h⟩ := Definition.expectDistinct_ignoresReturns.spares.of_bind h
  rcases bind_eq_error h with hdefinitions | ⟨_, -, h⟩
  · obtain ⟨d, hd, hfound⟩ := Definition.checkAll_unreachable hdefinitions
    exact ⟨d, List.mem_append_left _ hd, hfound⟩
  rcases bind_eq_error h with hmain | ⟨_, -, h⟩
  · refine ⟨p.script, List.mem_append_right _ (List.mem_singleton_self _), ?_⟩
    rcases bind_eq_error hmain with hstmts | ⟨_, -, hstmts⟩
    · exact Stmt.checkAll_unreachable Stmt.start_exact hstmts
    · cases hstmts
  cases h

/-! ## Exactness -/

/-- **The summaries of blocks are exact about their paths.** A block that
passes the check under a definition is found never to return if no path
through it returns, always to return if every path does, and maybe to return
if some path does and some path goes on; and every statement in it, at
whatever depth, is on some path. Where a statement is refused as unreachable,
no path through the statements before it in its block goes on to it. -/
theorem Program.summaries_are_exact :
    (∀ (sigs : Signatures) (ty : Ty) (scope : Scope)
        (block : Block (Stmt Span)) (c : Checked (Block (Stmt Judged))),
      block.check sigs (some ty) scope = .ok c →
        (c.returns = .never ↔ ∀ visited ending,
          Stmt.PathAll block.stmts visited ending → ending ≠ .returns)
        ∧ (c.returns = .always ty ↔ ∀ visited ending,
          Stmt.PathAll block.stmts visited ending → ending = .returns)
        ∧ (c.returns = .maybe ty ↔
          (∃ visited, Stmt.PathAll block.stmts visited .returns)
            ∧ ∃ visited, Stmt.PathAll block.stmts visited .goesOn)
        ∧ ∀ pos found, Stmt.locate? [] block.stmts pos = some found →
          ∃ visited ending, Stmt.PathAll block.stmts visited ending
            ∧ pos ∈ visited)
    ∧ ∀ (p : Program Span) (span : Span),
      p.check = .error ⟨.unreachable, span⟩ →
        ∃ d ∈ p.bodies, ∃ pos before stmt,
          Stmt.locate? [] d.body.stmts pos = some (before, stmt)
          ∧ stmt.span = span
          ∧ ∀ visited ending, Stmt.PathAll before visited ending →
            ending = .returns := by
  constructor
  · intro sigs ty scope block c h
    obtain ⟨checked, hchecked, h⟩ := bind_eq_ok.mp h
    cases pure_eq_ok.mp h
    have hexact := Stmt.checkAll_never_exact hchecked
    have hnever := Stmt.forall_ne_returns block.stmts
    have halways := Stmt.forall_eq_returns block.stmts
    refine ⟨?_, ?_, ?_, fun pos found hpos =>
      (Stmt.checkAll_reaches .start hchecked hpos).2⟩
    · rw [hnever]
      exact hexact.eq_never_iff
    · rw [halways]
      exact hexact.eq_always_iff
    · exact hexact.eq_maybe_iff
  · intro p span h
    obtain ⟨d, hd, pos, before, stmt, hpos, hspan, hbefore⟩ :=
      check_unreachable h
    exact ⟨d, hd, pos, before, stmt, hpos, hspan,
      (Stmt.forall_eq_returns before).mpr hbefore⟩

/-- A block that waits in a loop that may return. -/
def Block.waiting : Block (Stmt Span) := .spanning
  [.whileLoop .origin (.lit .origin (.bool true))
    (.spanning [.retUnit .origin])]

/-- A program with a statement after a return. -/
def Program.tooLate : Program Span where
  definitions := [{
    name := "leave"
    params := []
    ret := .unit
    body := .spanning [.retUnit .origin, .pass ⟨7, 11⟩]
    nameSpan := .origin }]
  main := .spanning []

/-- The loop that waits may return, and what is too late is not reached. -/
theorem Program.summaries_are_exact_tooLate :
    (∃ c, Block.waiting.check (fun _ => none) (some .unit) (.empty "leave")
        = .ok c
      ∧ c.returns = .maybe .unit
      ∧ (∃ visited, Stmt.PathAll Block.waiting.stmts visited .returns)
      ∧ ∃ visited, Stmt.PathAll Block.waiting.stmts visited .goesOn)
    ∧ tooLate.check = .error ⟨.unreachable, ⟨7, 11⟩⟩
    ∧ ∃ d ∈ tooLate.bodies, ∃ pos before stmt,
      Stmt.locate? [] d.body.stmts pos = some (before, stmt)
        ∧ stmt.span = ⟨7, 11⟩
        ∧ ∀ visited ending, Stmt.PathAll before visited ending →
          ending = .returns := by
  have hrefused : tooLate.check = .error ⟨.unreachable, ⟨7, 11⟩⟩ := by rfl
  have hwaiting := summaries_are_exact.1 (fun _ => none) .unit (.empty "leave")
    Block.waiting _ rfl
  exact ⟨⟨_, rfl, rfl, hwaiting.2.2.1.mp rfl⟩, hrefused,
    summaries_are_exact.2 tooLate ⟨7, 11⟩ hrefused⟩

end Primer
