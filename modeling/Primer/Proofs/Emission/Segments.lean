import Mathlib.Data.List.Pairwise
import Primer.Proofs.Courses
import Primer.Proofs.Emission.Nesting
import Primer.Proofs.Reordering.Emission

/-!
# Segments are sealed

What code is emitted for an expression, a statement or a block stands in the
code of a routine between other code, which was emitted before it, after it or
around it, and which may define labels that the segment goes to. A jump that
is missing, or a label that is placed wrongly, would let control run from one
segment into another.

It does not. A segment is *sealed* (`Segment.IsSealed`): control comes into it
at its start, and it leaves it in the ways that there are for its fragment.
Code that stores a value is run past its end. Code that branches jumps to one
of its two labels. The code of a statement or a block is run past its end, or
it returns. All other jumps go to labels that the segment has taken itself and
defines itself, and nothing else goes there.

That holds of every segment in the routines of a checked program, at any depth
(`Program.segments_are_sealed`).
-/

namespace Primer

open SymbolTable

/-! ## Statements return only in returns -/

namespace Stmt

variable {site : Site}

open Code.ReturnsTo

mutual

/-- **The code of a statement goes to the exit in returns only.** -/
theorem Emits.returnsTo {stmt : Stmt Judged} {t t' : SymbolTable}
    {code : Code} (h : stmt.Emits site t code t')
    (hexit : site.exit ∉ code.labels) : code.ReturnsTo site.exit := by
  match h with
  | .introduce hvalue | .assign hvalue =>
    exact of_inner hvalue.inner hexit nofun
  | .update _ _ hoperand =>
    simp only [Code.labels_append, List.mem_append, not_or] at hexit
    refine ((single ?_).append
      (of_inner hoperand.inner hexit.1.2 nofun)).append (single ?_)
    all_goals exact nofun
  | .pass => exact single nofun
  | .print hargs hnewline =>
    rw [Code.labels_append, List.mem_append, not_or] at hexit
    exact (of_inner (hargs.inner []) hexit.1 nofun).append
      (of_inner (hnewline.inner []) hexit.2 nofun)
  | .ret _ hvalue =>
    rw [Code.labels_append, List.mem_append, not_or] at hexit
    exact (of_inner hvalue.inner hexit.1 nofun).append (emitReturn site _)
  | .retUnit _ => exact cons nofun (emitReturn site _)
  | .call hargs =>
    simp only [Code.labels_append, List.mem_append, not_or] at hexit
    exact ((of_inner hargs.inner hexit.1.1 nofun).append
      (of_inner (inner_setArguments [] _ _) hexit.1.2 nofun)).append
        (single nofun)
  | .ifElse _ _ _ hcond hthen helse =>
    simp only [Code.labels_append, Code.labels_cons, Code.labels_nil,
      List.mem_append, not_or] at hexit
    obtain ⟨⟨⟨⟨⟨hcondCode, hthenLabel⟩, hthenCode⟩, helseLabel⟩, helseCode⟩,
      hdone⟩ := hexit
    refine (((((of_inner hcond.inner hcondCode ?_).append (single ?_)).append
      (hthen.returnsTo hthenCode)).append (cons ?_ (single ?_))).append
        (helse.returnsTo helseCode)).append (single ?_)
    all_goals simp_all [Destination.exits, Instr.targets, Instr.label?]
  | .whileLoop _ _ _ hcond hbody =>
    simp only [Code.labels_append, Code.labels_cons, Code.labels_nil,
      List.mem_append, not_or] at hexit
    obtain ⟨⟨⟨⟨hagain, hcondCode⟩, hstart⟩, hbodyCode⟩, hdone⟩ := hexit
    refine ((((single ?_).append (of_inner hcond.inner hcondCode ?_)).append
      (single ?_)).append (hbody.returnsTo hbodyCode)).append
        (cons ?_ (single ?_))
    all_goals simp_all [Destination.exits, Instr.targets, Instr.label?]

/-- **The code of statements goes to the exit in returns only.** -/
theorem EmitsAll.returnsTo {stmts : List (Stmt Judged)} {t t' : SymbolTable}
    {code : Code} (h : EmitsAll site stmts t code t')
    (hexit : site.exit ∉ code.labels) : code.ReturnsTo site.exit := by
  match h with
  | .nil => exact of_notMem nofun
  | .cons hstmt hstmts =>
    rw [Code.labels_append, List.mem_append, not_or] at hexit
    exact (hstmt.returnsTo hexit.1).append (hstmts.returnsTo hexit.2)

end

end Stmt

/-- **Code that branches ends in a jump or a branch.** -/
theorem Expr.Emits.exists_getLast? {site : Site} {e : Expr Judged}
    {ifTrue ifFalse : Label} {t t' : SymbolTable} {code : Code}
    (h : e.Emits site (.branch ifTrue ifFalse) t code t') :
    ∃ i, code.getLast? = some i ∧ i.targets ≠ [] := by
  match h with
  | .boolBranch => exact ⟨_, rfl, List.cons_ne_nil _ _⟩
  | .varBranch => exact ⟨_, rfl, List.cons_ne_nil _ _⟩
  | .compare _ _ _ _ | .branchStored _ _ _ =>
    exact ⟨_, List.getLast?_concat, List.cons_ne_nil _ _⟩
  | .and _ _ hrhs | .or _ _ hrhs =>
    obtain ⟨i, hlast, hi⟩ := hrhs.exists_getLast?
    exact ⟨i, by rw [List.getLast?_append, hlast]; rfl, hi⟩
  | .not hoperand => exact hoperand.exists_getLast?

/-! ## Sealed segments -/

/-- **The ways in which the segment of a fragment is left**: code that stores
is run past its end, code that branches jumps to one of its two labels, and
the code of statements is run past its end or returns. -/
def Fragment.Leaves (site : Site) (whole code back : Code) :
    Fragment → List Instr → Code → Prop
  | expr _ (.store _), trace, pos => Code.RunsPast code back trace pos
  | expr _ (.branch ifTrue ifFalse), trace, pos =>
    Code.JumpsTo whole ifTrue trace pos ∨ Code.JumpsTo whole ifFalse trace pos
  | stmt _, trace, pos | block _, trace, pos =>
    Code.RunsPast code back trace pos ∨ Code.Returns whole site.exit trace pos

namespace Segment

/-- **A segment is sealed** between the code in front of it and the code
behind it. -/
structure IsSealed (site : Site) (front : Code) (s : Segment) (back : Code) :
    Prop where
  /-- Control comes into it at its start. -/
  enters : ∀ {pos next}, pos <:+ front ++ s.code site ++ back →
    (front ++ s.code site ++ back).Flow pos next →
    ¬ Code.Inside (s.code site) back pos →
    Code.Inside (s.code site) back next → next = s.code site ++ back
  /-- Control leaves it in a way that there is for its fragment. -/
  leaves : (front ++ s.code site ++ back).LeavesBy (s.code site) back
    (s.fragment.Leaves site (front ++ s.code site ++ back) (s.code site) back)
  /-- The body does not end in it. -/
  stays : .leave ∉ s.code site
  /-- If it branches, its last instruction is a jump or a branch. -/
  ends : ∀ e ifTrue ifFalse, s.fragment = .expr e (.branch ifTrue ifFalse) →
    ∃ i, (s.code site).getLast? = some i ∧ i.targets ≠ []
  /-- The labels that it was given are not its own. -/
  exits : ∀ l ∈ s.fragment.exits site, l ∉ (s.code site).labels
  /-- Every other label that it goes to was taken while it was emitted, and
  it defines that label once. -/
  targets : ∀ l ∈ (s.code site).targets, l ∈ s.fragment.exits site
    ∨ s.TakesLabel site l ∧ (s.code site).labels.count l = 1
  /-- No label of it is gone to from elsewhere in the code. -/
  hidden : ∀ l ∈ (s.code site).labels, l ∉ front.targets ∧ l ∉ back.targets

variable {site : Site} {root s : Segment} {front before after back : Code}

theorem exists_getLast? {e : Expr Judged} {ifTrue ifFalse : Label}
    (h : s.fragment = .expr e (.branch ifTrue ifFalse)) :
    ∃ i, (s.code site).getLast? = some i ∧ i.targets ≠ [] := by
  obtain ⟨f, t⟩ := s
  cases h
  exact (e.emits site (.branch ifTrue ifFalse) t).exists_getLast?

/-- **A segment is left as segments of its fragment are**, if the exit of the
body is not in it. -/
theorem leaves (hnodup : (front ++ s.code site ++ back).labels.Nodup)
    (hexit : site.exit ∉ (s.code site).labels) :
    (front ++ s.code site ++ back).LeavesBy (s.code site) back
      (s.fragment.Leaves site (front ++ s.code site ++ back) (s.code site)
        back) := by
  have hinner := s.inner site
  obtain ⟨f, t⟩ := s
  match f with
  | .expr e (.store dst) => exact Code.leavesBy_runsPast hnodup hinner
  | .expr e (.branch ifTrue ifFalse) =>
    exact Code.leavesBy_jumpsTo hnodup hinner (exists_getLast? rfl)
  | .stmt stmt =>
    exact Code.leavesBy_returns hnodup hinner
      ((stmt.emits site t).returnsTo hexit)
  | .block stmts =>
    exact Code.leavesBy_returns hnodup hinner
      ((Stmt.emitsAll site stmts t).returnsTo hexit)

/-- **A segment that a body contains is sealed**, if no label is defined twice
in the routine of the body. -/
theorem Contains.isSealed (h : root.Contains site before s after)
    (hroot : root.fragment.exits site = [site.exit]) {entry : Label}
    (hnodup : Code.labels (.label entry :: .enter :: root.code site
      ++ [.label site.exit, .leave]) |>.Nodup)
    (hbody : root.start.IsBody site.scope) :
    s.IsSealed site (.label entry :: .enter :: before)
      (after ++ [.label site.exit, .leave]) := by
  obtain ⟨houter, hgiven⟩ := h.surroundings
  rw [hroot] at houter hgiven
  have hcode : .label entry :: .enter :: root.code site
        ++ [.label site.exit, .leave]
      = .label entry :: .enter :: before ++ s.code site
        ++ (after ++ [.label site.exit, .leave]) := by simp [h.code_eq]
  rw [hcode] at hnodup
  -- the labels of the segment are its own: none is defined around it
  have hown : (s.code site).labels.Nodup
      ∧ ∀ l ∈ (s.code site).labels,
        l ∉ (before ++ after).labels ++ [site.exit] := by
    simp only [Code.labels_append, Code.labels_cons, Code.labels_nil,
      Instr.label?, Option.toList_some, Option.toList_none, List.nil_append,
      List.append_nil] at hnodup ⊢
    grind
  obtain ⟨hown, hdisjoint⟩ := hown
  -- and what is around it goes to labels around it, or to the exit
  have hhidden : ∀ l ∈ (s.code site).labels,
      l ∉ Code.targets (.label entry :: .enter :: before)
        ∧ l ∉ Code.targets (after ++ [.label site.exit, .leave]) := by
    intro l hl
    have hout : l ∉ (before ++ after).targets :=
      fun hmem => hdisjoint l hl (houter hmem)
    rw [Code.targets_append, List.mem_append, not_or] at hout
    simpa [Instr.targets] using hout
  constructor
  case enters =>
    exact fun hpos hflow hout hin => hflow.enters hhidden hpos hout hin
  case leaves =>
    refine leaves hnodup fun hmem => hdisjoint _ hmem ?_
    exact List.mem_append_right _ (List.mem_singleton_self _)
  case stays => exact (s.inner site).leave
  case ends => exact fun e ifTrue ifFalse => exists_getLast?
  case exits => exact fun l hl hmem => hdisjoint l hmem (hgiven hl)
  case targets =>
    intro l hl
    refine ((s.inner site).targets l hl).symm.imp_right fun hmem => ?_
    exact ⟨takesLabel_of_mem (hbody.grows h.grows) hmem,
      List.count_eq_one_of_mem hown hmem⟩
  case hidden => exact hhidden

end Segment

/-! ## Programs -/

/-- **The emission of a program comes to the statements of a body**, at this
site and over this table: the texts that any code may print have been
interned, the routines of the bodies in front have been emitted, the name of
the body has been declared and the exit has been taken. -/
inductive TypedProgram.ComesTo (p : TypedProgram) (d : Definition Judged) :
    Site → SymbolTable → Prop
  /-- All of this, in this order. -/
  | mk {constants : Constants} {before after : List (Definition Judged)}
      {routines : List Routine} {t t₁ t₂ t₃ : SymbolTable} {scope : ScopeId}
      {exit : Label}
      (hconstants : Emit.constants.run p.symbols = (constants, t))
      (hbodies : p.program.bodies = before ++ d :: after)
      (hbefore : emitDefinitions constants t before = .ok (routines, t₁))
      (hscope : t₁.scopeOf? d.name = some scope)
      (hentry : t₁.declare .global (.label d.name) = .ok t₂)
      (hexit : t₂.freshLabel scope (some "done") = (exit, t₃)) :
    ComesTo p d ⟨scope, exit, constants⟩ t₃

/-- The scope of the site is that of a body. -/
theorem TypedProgram.ComesTo.isBody {p : TypedProgram}
    {d : Definition Judged} {site : Site} {t : SymbolTable}
    (h : p.ComesTo d site t) : t.IsBody site.scope := by
  cases h with
  | mk _ _ _ hscope hentry hexit =>
    obtain ⟨-, rfl⟩ := declare_global_eq_ok hentry
    have hhas := has_of_scopeOf? hscope
    have hgrows := Grows.label (.point (by simp)) hexit
    exact ⟨hgrows.has hhas, ne_global_of_scopeOf? hscope⟩

/-- Each routine is emitted after those in front of it. -/
theorem Definition.emitRoutine_of_emitDefinitions {constants : Constants}
    {ds : List (Definition Judged)} {rs : List Routine}
    {t t' : SymbolTable} (h : emitDefinitions constants t ds = .ok (rs, t')) :
    List.Forall₂ (fun d r => ∃ before after routines t₁ t₂,
      ds = before ++ d :: after
        ∧ emitDefinitions constants t before = .ok (routines, t₁)
        ∧ emitRoutine constants t₁ d.name d.params d.ret d.body
          = .ok (r, t₂)) ds rs := by
  induction ds generalizing t rs with
  | nil =>
    cases h
    exact .nil
  | cons first ds ih =>
    obtain ⟨⟨r, t₁⟩, hfirst, h⟩ := bind_eq_ok.mp h
    obtain ⟨⟨rs, t₂⟩, hrest, h⟩ := bind_eq_ok.mp h
    cases pure_eq_ok.mp h
    refine .cons ⟨[], ds, [], t, t₁, rfl, rfl, hfirst⟩ ((ih hrest).imp ?_)
    rintro d r' ⟨before, after, routines, t₃, t₄, rfl, hbefore, hr⟩
    exact ⟨first :: before, after, r :: routines, t₃, t₄, rfl,
      bind_eq_ok.mpr ⟨_, hfirst, bind_eq_ok.mpr ⟨_, hbefore, rfl⟩⟩, hr⟩

/-- **The code of each routine** is that of the statements to which emission
comes, between the entry and the exit. -/
theorem TypedProgram.comesTo_of_emit {p : TypedProgram} {a : Assembly}
    (h : p.emit = .ok a) :
    List.Forall₂ (fun d r => ∃ site t, p.ComesTo d site t
      ∧ r.code = .label r.name :: .enter
        :: (Segment.mk (.block d.body.stmts) t).code site
        ++ [.label site.exit, .leave]) p.program.bodies a.bodies := by
  refine (Definition.emitRoutine_of_emitDefinitions (emit_bodies h)).imp ?_
  rintro d r ⟨before, after, routines, t₁, t₂, hbodies, hbefore, hr⟩
  obtain ⟨scope, t₃, hscope, hentry, rfl, -⟩ := emitRoutine_eq_ok hr
  exact ⟨_, _, .mk Prod.mk.eta.symm hbodies hbefore hscope hentry
    Prod.mk.eta.symm, rfl⟩

/-- **No routine goes to a label of another one**, if the program is well
formed. -/
theorem Assembly.WellFormed.notMem_targets {a : Assembly} (h : a.WellFormed)
    {r r' : Routine} (hr : r ∈ a.bodies) (hr' : r' ∈ a.bodies) (hne : r' ≠ r)
    {l : Label} (hl : l ∈ r.code.labels) : l ∉ r'.code.targets := by
  have hsymm : Std.Symm
      (Function.onFun List.Disjoint fun r : Routine => r.code.labels) :=
    ⟨fun _ _ hdisjoint => hdisjoint.symm⟩
  have hdisjoint := (List.nodup_flatMap.mp h.labels).2.forall hr hr' hne.symm
  exact fun hmem => hdisjoint hl ((h.bodies r' hr').targets hmem)

/-- **A routine seals the segments of its body**: those that `root` contains,
which is the segment of the body itself. The routines of the program are
`bodies`. -/
structure Routine.SealsSegments (bodies : List Routine) (site : Site)
    (root : Segment) (r : Routine) : Prop where
  /-- There is a segment for every phrase of the body. -/
  reaches : ∀ x, root.fragment.phrase.Has x → root.Reaches site x
  /-- A segment stands in the code of the routine. -/
  stands : ∀ {before s after}, root.Contains site before s after →
    r.code = .label r.name :: .enter :: before ++ s.code site
      ++ (after ++ [.label site.exit, .leave])
  /-- It is sealed there. -/
  sealed : ∀ {before s after}, root.Contains site before s after →
    s.IsSealed site (.label r.name :: .enter :: before)
      (after ++ [.label site.exit, .leave])
  /-- No label of it is gone to from another routine. -/
  hidden : ∀ {before s after}, root.Contains site before s after →
    ∀ r' ∈ bodies, r' ≠ r → ∀ l ∈ (s.code site).labels, l ∉ r'.code.targets

/-- A routine of a well-formed program seals the segments of its body. -/
theorem Assembly.WellFormed.sealsSegments {a : Assembly} (h : a.WellFormed)
    {r : Routine} (hr : r ∈ a.bodies) {site : Site} {root : Segment}
    (hroot : root.fragment.exits site = [site.exit])
    (hbody : root.start.IsBody site.scope)
    (hcode : r.code = .label r.name :: .enter :: root.code site
      ++ [.label site.exit, .leave]) :
    r.SealsSegments a.bodies site root := by
  have hstands : ∀ {before s after}, root.Contains site before s after →
      r.code = .label r.name :: .enter :: before ++ s.code site
        ++ (after ++ [.label site.exit, .leave]) := by
    intro before s after hs
    rw [hcode, hs.code_eq]
    simp
  have hnodup := (List.nodup_flatMap.mp h.labels).1 r hr
  rw [hcode] at hnodup
  refine ⟨fun x => Segment.reaches_of_has, hstands,
    fun hs => hs.isSealed hroot hnodup hbody, ?_⟩
  intro before s after hs r' hr' hne l hl
  refine h.notMem_targets hr hr' hne ?_
  rw [hstands hs, Code.labels_append, Code.labels_append]
  exact List.mem_append_left _ (List.mem_append_right _ hl)

/-- **All segments of a checked program are sealed**, if no name of a
definition begins with a point: code is emitted for the program, and the
routine of each body seals the segments that were emitted for it. Control
flows in the code as it does in the machine (`Machine.step_flow`). -/
theorem Program.segments_are_sealed {p : Program Span} {typed : TypedProgram}
    (hcheck : p.check = .ok typed)
    (hnames : ∀ d ∈ p.definitions, ¬ d.name.BeginsWith '.') :
    ∃ a, p.compile = .ok a
      ∧ List.Forall₂ (fun d r => ∃ site t, typed.ComesTo d site t
        ∧ r.SealsSegments a.bodies site ⟨.block d.body.stmts, t⟩)
        typed.program.bodies a.bodies := by
  obtain ⟨a, hemit⟩ := exists_emit_of_check hcheck hnames
  have hwell := (TypedProgram.emits_of_emit hemit).wellFormed
    (check_sound hcheck) hnames
  have hcomes := TypedProgram.comesTo_of_emit hemit
  refine ⟨a, compile_eq_ok.mpr ⟨typed, hcheck, hemit⟩,
    List.forall₂_iff_zip.mpr ⟨hcomes.length_eq, fun {d r} hmem => ?_⟩⟩
  obtain ⟨site, t, hcome, hcode⟩ := (List.forall₂_iff_zip.mp hcomes).2 hmem
  exact ⟨site, t, hcome, hwell.sealsSegments (List.of_mem_zip hmem).2 rfl
    hcome.isBody hcode⟩

/-- The segments of the doubling program are sealed. -/
theorem Program.segments_are_sealed_doubling : ∃ typed a,
    doubling.check = .ok typed ∧ doubling.compile = .ok a
      ∧ List.Forall₂ (fun d r => ∃ site t, typed.ComesTo d site t
        ∧ r.SealsSegments a.bodies site ⟨.block d.body.stmts, t⟩)
        typed.program.bodies a.bodies := by
  obtain ⟨a, hcompile⟩ := exists_compile_doubling
  obtain ⟨typed, hcheck, -⟩ := compile_eq_ok.mp hcompile
  have hnames : ∀ d ∈ doubling.definitions, ¬ d.name.BeginsWith '.' := by
    decide
  obtain ⟨a, ha, hseals⟩ := segments_are_sealed hcheck hnames
  exact ⟨typed, a, hcheck, ha, hseals⟩

end Primer
