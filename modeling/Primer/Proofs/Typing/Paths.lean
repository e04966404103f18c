import Primer.Proofs.Emission.Routines

/-!
# Summaries and paths

The checker sums up in one word how control leaves a block: it never returns,
it always returns, or it may. What that is a summary *of* is said here. A
*structural path* through a block is any way of executing it that looks at no
condition: it takes either side of a choice, goes any number of times through
the body of a loop, and stops at the first return (`Stmt.Path`). There are
infinitely many of them as soon as there is a loop.

The summary of a block that passes the check is exact about its paths. It
never says less than what holds of all of them: a block that may return has a
path that does and a path that does not. This comes down to three facts on
the summaries alone, one for each way of putting code together
(`Returns.Exact`). And since nothing is accepted after code that always
returns, nothing in such a block is out of reach.
-/

namespace Primer

/-! ## Paths -/

namespace Stmt

variable {α : Type}

/-- **How a path ends.** -/
inductive Ending where
  /-- At the end of the code, so that it goes on to what follows. -/
  | goesOn
  /-- At a return. -/
  | returns

/-- **The position of a statement** in a list of statements. -/
inductive Position where
  /-- It is the first one. -/
  | here
  /-- It is after the first one. -/
  | later (pos : Position)
  /-- It is in the first block of the first one, a choice. -/
  | inThen (pos : Position)
  /-- It is in the second block of the first one, a choice. -/
  | inElse (pos : Position)
  /-- It is in the block of the first one, a loop. -/
  | inBody (pos : Position)

/-- **The statement at a position**, together with the statements before it
in its own block. Those before the list are `before`. -/
def locate? (before : List (Stmt α)) :
    List (Stmt α) → Position → Option (List (Stmt α) × Stmt α)
  | stmt :: _, .here => some (before, stmt)
  | stmt :: rest, .later pos => locate? (before ++ [stmt]) rest pos
  | ifElse _ _ thenBlock _ :: _, .inThen pos => locate? [] thenBlock.stmts pos
  | ifElse _ _ _ elseBlock :: _, .inElse pos => locate? [] elseBlock.stmts pos
  | whileLoop _ _ body :: _, .inBody pos => locate? [] body.stmts pos
  | _, _ => none

@[simp] theorem locate?_nil {before : List (Stmt α)} {pos : Position} :
    locate? before [] pos = none := by
  cases pos <;> rfl

theorem locate?_cons {before rest : List (Stmt α)} {stmt : Stmt α}
    {pos : Position} {found : List (Stmt α) × Stmt α} :
    locate? before (stmt :: rest) pos = some found
      ↔ (∃ others, pos = .later others
          ∧ locate? (before ++ [stmt]) rest others = some found)
        ∨ locate? before [stmt] pos = some found := by
  cases pos with
  | later pos => simp [locate?]
  | here => simp [locate?]
  | inThen | inElse | inBody => cases stmt <;> simp [locate?]

/-- The statements that control goes straight through. -/
def isStraight : Stmt α → Bool
  | introduce _ _ _ _ | assign _ _ _ | update _ _ _ _ | pass _ | print _ _
  | call _ _ _ => true
  | ret _ _ | retUnit _ | ifElse _ _ _ _ | whileLoop _ _ _ => false

mutual

/-- **A path through a statement**, with the positions it visits and how it
ends. The positions are those in a list that begins with the statement. -/
inductive Path : Stmt α → List Position → Ending → Prop
  /-- Straight through. -/
  | straight {stmt : Stmt α} (h : stmt.isStraight = true) :
    Path stmt [.here] .goesOn
  /-- To a return of a value. -/
  | ret {span : Span} {value : Expr α} :
    Path (.ret span value) [.here] .returns
  /-- To a return of no value. -/
  | retUnit {span : Span} : Path (.retUnit span) [.here] .returns
  /-- Through the first block of a choice. -/
  | thenSide {span : Span} {cond : Expr α}
      {thenBlock elseBlock : Block (Stmt α)} {visited : List Position}
      {ending : Ending}
      (h : PathAll thenBlock.stmts visited ending) :
    Path (.ifElse span cond thenBlock elseBlock)
      (.here :: visited.map .inThen) ending
  /-- Through the second block of a choice. -/
  | elseSide {span : Span} {cond : Expr α}
      {thenBlock elseBlock : Block (Stmt α)} {visited : List Position}
      {ending : Ending}
      (h : PathAll elseBlock.stmts visited ending) :
    Path (.ifElse span cond thenBlock elseBlock)
      (.here :: visited.map .inElse) ending
  /-- Through the rounds of a loop. -/
  | loop {span : Span} {cond : Expr α} {body : Block (Stmt α)}
      {visited : List Position} {ending : Ending}
      (h : Rounds body.stmts visited ending) :
    Path (.whileLoop span cond body) (.here :: visited.map .inBody) ending

/-- **A path through statements**, one after the other. -/
inductive PathAll : List (Stmt α) → List Position → Ending → Prop
  /-- Through no statement. -/
  | nil : PathAll [] [] .goesOn
  /-- To a return in the first statement. -/
  | stops {stmt : Stmt α} {rest : List (Stmt α)} {visited : List Position}
      (h : Path stmt visited .returns) :
    PathAll (stmt :: rest) visited .returns
  /-- Through the first statement, then through the others. -/
  | cons {stmt : Stmt α} {rest : List (Stmt α)}
      {visited others : List Position} {ending : Ending}
      (h : Path stmt visited .goesOn) (hrest : PathAll rest others ending) :
    PathAll (stmt :: rest) (visited ++ others.map .later) ending

/-- **The rounds of a loop**, any number of them. -/
inductive Rounds : List (Stmt α) → List Position → Ending → Prop
  /-- None. -/
  | none {body : List (Stmt α)} : Rounds body [] .goesOn
  /-- One that returns. -/
  | stops {body : List (Stmt α)} {visited : List Position}
      (h : PathAll body visited .returns) : Rounds body visited .returns
  /-- One round, then others. -/
  | again {body : List (Stmt α)} {visited others : List Position}
      {ending : Ending} (h : PathAll body visited .goesOn)
      (hrest : Rounds body others ending) :
    Rounds body (visited ++ others) ending

end

theorem Path.here_mem {stmt : Stmt α} {visited : List Position}
    {ending : Ending} (h : stmt.Path visited ending) :
    .here ∈ visited := by
  cases h <;> exact List.mem_cons_self ..

/-- Some path through a statement ends like this. -/
def Can (stmt : Stmt α) (ending : Ending) : Prop :=
  ∃ visited, stmt.Path visited ending

/-- Some path through statements ends like this. -/
def CanAll (stmts : List (Stmt α)) (ending : Ending) : Prop :=
  ∃ visited, PathAll stmts visited ending

mutual

/-- There is a path through every statement. -/
theorem exists_path (stmt : Stmt α) :
    ∃ visited ending, stmt.Path visited ending := by
  match stmt with
  | .introduce _ _ _ _ | .assign _ _ _ | .update _ _ _ _ | .pass _
  | .print _ _ | .call _ _ _ => exact ⟨_, _, .straight rfl⟩
  | .ret _ _ => exact ⟨_, _, .ret⟩
  | .retUnit _ => exact ⟨_, _, .retUnit⟩
  | .ifElse _ _ ⟨thenStmts, _⟩ _ =>
    obtain ⟨_, _, h⟩ := exists_pathAll thenStmts
    exact ⟨_, _, .thenSide h⟩
  | .whileLoop _ _ _ => exact ⟨_, _, .loop .none⟩

/-- There is a path through all statements. -/
theorem exists_pathAll (stmts : List (Stmt α)) :
    ∃ visited ending, PathAll stmts visited ending := by
  match stmts with
  | [] => exact ⟨_, _, .nil⟩
  | stmt :: stmts =>
    obtain ⟨_, ending, h⟩ := exists_path stmt
    obtain ⟨_, _, hrest⟩ := exists_pathAll stmts
    cases ending with
    | goesOn => exact ⟨_, _, .cons h hrest⟩
    | returns => exact ⟨_, _, .stops h⟩

end

theorem can_of_isStraight {stmt : Stmt α} (h : stmt.isStraight = true) :
    stmt.Can .goesOn ∧ ¬stmt.Can .returns := by
  refine ⟨⟨_, .straight h⟩, ?_⟩
  rintro ⟨_, hpath⟩
  cases hpath <;> cases h

/-- A choice can do what one of its blocks can do. -/
theorem can_ifElse {span : Span} {cond : Expr α}
    {thenBlock elseBlock : Block (Stmt α)} {ending : Ending} :
    (ifElse span cond thenBlock elseBlock).Can ending
      ↔ CanAll thenBlock.stmts ending ∨ CanAll elseBlock.stmts ending := by
  constructor
  · rintro ⟨_, hpath⟩
    cases hpath with
    | straight h => cases h
    | thenSide h => exact .inl ⟨_, h⟩
    | elseSide h => exact .inr ⟨_, h⟩
  · rintro (⟨_, h⟩ | ⟨_, h⟩)
    · exact ⟨_, .thenSide h⟩
    · exact ⟨_, .elseSide h⟩

theorem can_goesOn_whileLoop {span : Span} {cond : Expr α}
    {body : Block (Stmt α)} : (whileLoop span cond body).Can .goesOn :=
  ⟨_, .loop .none⟩

theorem Rounds.canAll {body : List (Stmt α)} {visited : List Position}
    {ending : Ending} (h : Rounds body visited ending)
    (hending : ending = .returns) : CanAll body .returns := by
  match h with
  | .none => cases hending
  | .stops h => exact ⟨_, h⟩
  | .again _ hrest => exact hrest.canAll hending

/-- A loop can return if its body can. -/
theorem can_returns_whileLoop {span : Span} {cond : Expr α}
    {body : Block (Stmt α)} :
    (whileLoop span cond body).Can .returns
      ↔ CanAll body.stmts .returns := by
  constructor
  · rintro ⟨_, hpath⟩
    cases hpath with
    | loop h => exact h.canAll rfl
  · rintro ⟨_, h⟩
    exact ⟨_, .loop (.stops h)⟩

/-- Statements can go on if each of them can. -/
theorem canAll_goesOn_cons {stmt : Stmt α} {rest : List (Stmt α)} :
    CanAll (stmt :: rest) .goesOn
      ↔ stmt.Can .goesOn ∧ CanAll rest .goesOn := by
  constructor
  · rintro ⟨_, hpath⟩
    cases hpath with
    | cons h hrest => exact ⟨⟨_, h⟩, _, hrest⟩
  · rintro ⟨⟨_, h⟩, _, hrest⟩
    exact ⟨_, .cons h hrest⟩

/-- Statements can return if one of them can that the others lead to. -/
theorem canAll_returns_cons {stmt : Stmt α} {rest : List (Stmt α)} :
    CanAll (stmt :: rest) .returns
      ↔ stmt.Can .returns ∨ stmt.Can .goesOn ∧ CanAll rest .returns := by
  constructor
  · rintro ⟨_, hpath⟩
    cases hpath with
    | stops h => exact .inl ⟨_, h⟩
    | cons h hrest => exact .inr ⟨⟨_, h⟩, _, hrest⟩
  · rintro (⟨_, h⟩ | ⟨⟨_, h⟩, _, hrest⟩)
    · exact ⟨_, .stops h⟩
    · exact ⟨_, .cons h hrest⟩

/-- No statement is gone through without a return. -/
theorem canAll_nil {ending : Ending} :
    CanAll ([] : List (Stmt α)) ending ↔ ending = .goesOn := by
  constructor
  · rintro ⟨_, hpath⟩
    cases hpath
    rfl
  · rintro rfl
    exact ⟨_, .nil⟩

/-- Statements cannot return if no path returns. -/
theorem forall_ne_returns (stmts : List (Stmt α)) :
    (∀ visited ending, PathAll stmts visited ending → ending ≠ .returns)
      ↔ ¬CanAll stmts .returns := by
  constructor
  · rintro h ⟨visited, hpath⟩
    exact h visited .returns hpath rfl
  · rintro h visited _ hpath rfl
    exact h ⟨visited, hpath⟩

/-- Statements cannot go on if every path returns. -/
theorem forall_eq_returns (stmts : List (Stmt α)) :
    (∀ visited ending, PathAll stmts visited ending → ending = .returns)
      ↔ ¬CanAll stmts .goesOn := by
  constructor
  · rintro h ⟨visited, hpath⟩
    cases h visited .goesOn hpath
  · intro h visited ending hpath
    cases ending with
    | returns => rfl
    | goesOn => exact absurd ⟨visited, hpath⟩ h

/-- Statements with one more at their end can go on if that one can, too. -/
theorem canAll_goesOn_concat {stmts : List (Stmt α)} {last : Stmt α} :
    CanAll (stmts ++ [last]) .goesOn
      ↔ CanAll stmts .goesOn ∧ last.Can .goesOn := by
  induction stmts with
  | nil => simp [canAll_goesOn_cons, canAll_nil]
  | cons stmt stmts ih =>
    rw [List.cons_append, canAll_goesOn_cons, ih, canAll_goesOn_cons,
      and_assoc]

/-- Statements with one more at their end can return if they can, or if they
can go on and that one can return. -/
theorem canAll_returns_concat {stmts : List (Stmt α)} {last : Stmt α} :
    CanAll (stmts ++ [last]) .returns
      ↔ CanAll stmts .returns
        ∨ CanAll stmts .goesOn ∧ last.Can .returns := by
  induction stmts with
  | nil => simp [canAll_returns_cons, canAll_nil]
  | cons stmt stmts ih =>
    rw [List.cons_append, canAll_returns_cons, ih, canAll_returns_cons,
      canAll_goesOn_cons, and_or_left, or_assoc, and_assoc]

end Stmt

/-! ## Exact summaries -/

/-- **A summary is exact** about code that can return or not, and can go on
or not. Returns are of the expected type. -/
def Returns.Exact (expected : Option Ty) (canReturn canGoOn : Prop) :
    Returns → Prop
  | never => ¬canReturn ∧ canGoOn
  | always ty => expected = some ty ∧ canReturn ∧ ¬canGoOn
  | maybe ty => expected = some ty ∧ canReturn ∧ canGoOn

namespace Returns.Exact

variable {expected : Option Ty} {canReturn canGoOn canReturn' canGoOn' : Prop}
  {first second returns : Returns}

theorem congr (h : first.Exact expected canReturn canGoOn)
    (hreturn : canReturn' ↔ canReturn) (hgoOn : canGoOn' ↔ canGoOn) :
    first.Exact expected canReturn' canGoOn' := by
  rwa [propext hreturn, propext hgoOn]

theorem start : never.Exact expected False True := ⟨id, trivial⟩

theorem of_start (h : returns.Exact expected (False ∨ True ∧ canReturn)
    (True ∧ canGoOn)) : returns.Exact expected canReturn canGoOn :=
  h.congr (by simp) (by simp)

theorem canGoOn_of_then (h : first.Exact expected canReturn canGoOn)
    (hthen : first.Then second returns) : canGoOn := by
  cases hthen with
  | never => exact h.2
  | goesOn | ends | mayEnd => exact h.2.2

/-- **One piece after another** returns in the first one, or goes on to the
second one. -/
theorem sequence (h : first.Exact expected canReturn canGoOn)
    (h' : second.Exact expected canReturn' canGoOn')
    (hthen : first.Then second returns) :
    returns.Exact expected (canReturn ∨ canGoOn ∧ canReturn')
      (canGoOn ∧ canGoOn') := by
  cases hthen with
  | never =>
    obtain ⟨hreturn, hgoOn⟩ := h
    exact h'.congr (by simp [hreturn, hgoOn]) (by simp [hgoOn])
  | goesOn => exact ⟨h.1, .inl h.2.1, h.2.2, h'.2⟩
  | ends => exact ⟨h.1, .inl h.2.1, fun hboth => h'.2.2 hboth.2⟩
  | mayEnd => exact ⟨h.1, .inl h.2.1, h.2.2, h'.2.2⟩

theorem eq_never_iff (h : first.Exact expected canReturn canGoOn) :
    first = .never ↔ ¬canReturn := by
  cases first with
  | never => simp [h.1]
  | always _ | maybe _ => simp [h.2.1]

/-- The summary says that the code always returns if it cannot go on. -/
theorem eq_always_iff {ty : Ty}
    (h : first.Exact (some ty) canReturn canGoOn) :
    first = .always ty ↔ ¬canGoOn := by
  cases first with
  | never => simp [h.2]
  | always ty' =>
    cases h.1
    simp [h.2.2]
  | maybe _ => simp [h.2.2]

/-- The summary says that the code may return if it can do both. -/
theorem eq_maybe_iff {ty : Ty}
    (h : first.Exact (some ty) canReturn canGoOn) :
    first = .maybe ty ↔ canReturn ∧ canGoOn := by
  cases first with
  | never => simp [h.1]
  | always _ => simp [h.2.2]
  | maybe ty' =>
    cases h.1
    simp [h.2.1, h.2.2]

/-- A summary with a type is that of code that can return. -/
theorem of_ty?_eq_some {ty : Ty}
    (h : first.Exact expected canReturn canGoOn)
    (hty : first.ty? = some ty) : expected = some ty ∧ canReturn := by
  cases first with
  | never => cases hty
  | always _ | maybe _ =>
    cases hty
    exact ⟨h.1, h.2.1⟩

/-- **Two pieces side by side** can do what one of them can do. -/
theorem merge (h : first.Exact expected canReturn canGoOn)
    (h' : second.Exact expected canReturn' canGoOn')
    (heither : first.Either second returns) :
    returns.Exact expected (canReturn ∨ canReturn') (canGoOn ∨ canGoOn') := by
  cases heither with
  | neither => exact ⟨fun hor => hor.elim h.1 h'.1, .inl h.2⟩
  | both => exact ⟨h.1, .inl h.2.1, fun hor => hor.elim h.2.2 h'.2.2⟩
  | first hty =>
    obtain ⟨hexpected, hreturn⟩ := h.of_ty?_eq_some hty
    exact ⟨hexpected, .inl hreturn, .inr h'.2⟩
  | second hty =>
    obtain ⟨hexpected, hreturn⟩ := h'.of_ty?_eq_some hty
    exact ⟨hexpected, .inr hreturn, .inl h.2⟩
  | mayFirst hty => exact ⟨h.1, .inl h.2.1, .inl h.2.2⟩
  | maySecond hty => exact ⟨h'.1, .inr h'.2.1, .inr h'.2.2⟩

/-- **A piece that may be skipped** can always go on. -/
theorem demote (h : first.Exact expected canReturn canGoOn) :
    first.demote.Exact expected canReturn True := by
  cases first with
  | never => exact ⟨h.1, trivial⟩
  | always _ | maybe _ => exact ⟨h.1, h.2.1, trivial⟩

end Returns.Exact

namespace Stmt

variable {sigs : Signatures} {expected : Expected}

theorem returns_eq_never_of_isStraight {scope : Scope} {stmt : Stmt Span}
    {c : Checked (Stmt Judged)} (hstraight : stmt.isStraight = true)
    (h : stmt.check sigs expected scope = .ok c) : c.returns = .never := by
  cases stmt <;> cases hstraight <;>
    simp only [check, bind_eq_ok, pure_eq_ok] at h <;> grind

mutual

/-- **The summary of a statement is exact about its paths.** -/
theorem check_exact {scope : Scope} {stmt : Stmt Span}
    {c : Checked (Stmt Judged)} (h : stmt.check sigs expected scope = .ok c) :
    c.returns.Exact expected (stmt.Can .returns) (stmt.Can .goesOn) := by
  match stmt with
  | .introduce _ _ _ _ | .assign _ _ _ | .update _ _ _ _ | .pass _
  | .print _ _ | .call _ _ _ =>
    rw [returns_eq_never_of_isStraight rfl h]
    exact (can_of_isStraight rfl).symm
  | .ret _ _ =>
    cases expected with
    | none => cases h
    | some ty =>
      obtain ⟨_, -, h⟩ := bind_eq_ok.mp h
      obtain ⟨_, -, h⟩ := bind_eq_ok.mp h
      cases pure_eq_ok.mp h
      exact ⟨rfl, ⟨_, .ret⟩, fun ⟨_, hpath⟩ => nomatch hpath⟩
  | .retUnit _ =>
    cases expected with
    | none => cases h
    | some ty =>
      obtain ⟨_, hty, h⟩ := bind_eq_ok.mp h
      cases pure_eq_ok.mp h
      cases require_eq_ok.mp hty
      exact ⟨rfl, ⟨_, .retUnit⟩, fun ⟨_, hpath⟩ => nomatch hpath⟩
  | .ifElse _ _ ⟨_, _⟩ ⟨_, _⟩ =>
    obtain ⟨_, -, h⟩ := bind_eq_ok.mp h
    obtain ⟨_, hthen, h⟩ := bind_eq_ok.mp h
    obtain ⟨_, helse, h⟩ := bind_eq_ok.mp h
    obtain ⟨_, hmerge, h⟩ := bind_eq_ok.mp h
    cases pure_eq_ok.mp h
    have hone := (checkAll_exact .start hthen).of_start
    have hother := (checkAll_exact .start helse).of_start
    exact (hone.merge hother (Returns.merge_eq_ok.mp hmerge)).congr
      can_ifElse can_ifElse
  | .whileLoop _ _ ⟨_, _⟩ =>
    obtain ⟨_, -, h⟩ := bind_eq_ok.mp h
    obtain ⟨_, hbody, h⟩ := bind_eq_ok.mp h
    cases pure_eq_ok.mp h
    have honce := (checkAll_exact .start hbody).of_start
    exact honce.demote.congr can_returns_whileLoop
      (iff_true_intro can_goesOn_whileLoop)

/-- **The summary of statements is exact about their paths**, behind code
with an exact summary. -/
theorem checkAll_exact {scope : Scope} {before : Returns}
    {canReturn canGoOn : Prop}
    (hbefore : before.Exact expected canReturn canGoOn)
    {stmts : List (Stmt Span)} {c : Checked (List (Stmt Judged))}
    (h : checkAll sigs expected scope before stmts = .ok c) :
    c.returns.Exact expected
      (canReturn ∨ canGoOn ∧ CanAll stmts .returns)
      (canGoOn ∧ CanAll stmts .goesOn) := by
  match stmts with
  | [] =>
    cases pure_eq_ok.mp h
    exact hbefore.congr (by simp [canAll_nil]) (by simp [canAll_nil])
  | stmt :: stmts =>
    obtain ⟨_, hfirst, h⟩ := bind_eq_ok.mp h
    obtain ⟨_, hthen, h⟩ := bind_eq_ok.mp h
    obtain ⟨_, hrest, h⟩ := bind_eq_ok.mp h
    cases pure_eq_ok.mp h
    have hmid := hbefore.sequence (check_exact hfirst)
      (Returns.sequence_eq_ok.mp hthen)
    refine (checkAll_exact hmid hrest).congr ?_ ?_
    · rw [canAll_returns_cons, and_or_left, or_assoc, and_assoc]
    · rw [canAll_goesOn_cons, and_assoc]

end

theorem checkAll_never_exact {scope : Scope} {stmts : List (Stmt Span)}
    {c : Checked (List (Stmt Judged))}
    (h : checkAll sigs expected scope .never stmts = .ok c) :
    c.returns.Exact expected (CanAll stmts .returns)
      (CanAll stmts .goesOn) :=
  (checkAll_exact .start h).of_start

/-! ## What is in reach -/

/-- Some path through statements visits a position. -/
def Reaches {α : Type} (stmts : List (Stmt α)) (pos : Position) : Prop :=
  ∃ visited ending, PathAll stmts visited ending ∧ pos ∈ visited

mutual

/-- **Nothing in a statement is out of reach.** -/
theorem check_reaches {scope : Scope} {stmt : Stmt Span}
    {c : Checked (Stmt Judged)} (h : stmt.check sigs expected scope = .ok c)
    {before : List (Stmt Span)} {pos : Position}
    {found : List (Stmt Span) × Stmt Span}
    (hpos : locate? before [stmt] pos = some found) :
    ∃ visited ending, stmt.Path visited ending ∧ pos ∈ visited := by
  match pos with
  | .here =>
    obtain ⟨_, _, hpath⟩ := exists_path stmt
    exact ⟨_, _, hpath, hpath.here_mem⟩
  | .later pos =>
    rw [locate?, locate?_nil] at hpos
    cases hpos
  | .inThen pos =>
    match stmt with
    | .ifElse _ _ ⟨_, _⟩ ⟨_, _⟩ =>
      obtain ⟨_, -, h⟩ := bind_eq_ok.mp h
      obtain ⟨_, hthen, h⟩ := bind_eq_ok.mp h
      obtain ⟨-, _, _, hpath, hmem⟩ := checkAll_reaches .start hthen hpos
      exact ⟨_, _, .thenSide hpath, List.mem_cons_of_mem _
        (List.mem_map_of_mem hmem)⟩
  | .inElse pos =>
    match stmt with
    | .ifElse _ _ ⟨_, _⟩ ⟨_, _⟩ =>
      obtain ⟨_, -, h⟩ := bind_eq_ok.mp h
      obtain ⟨_, -, h⟩ := bind_eq_ok.mp h
      obtain ⟨_, helse, h⟩ := bind_eq_ok.mp h
      obtain ⟨-, _, _, hpath, hmem⟩ := checkAll_reaches .start helse hpos
      exact ⟨_, _, .elseSide hpath, List.mem_cons_of_mem _
        (List.mem_map_of_mem hmem)⟩
  | .inBody pos =>
    match stmt with
    | .whileLoop _ _ ⟨_, _⟩ =>
      obtain ⟨_, -, h⟩ := bind_eq_ok.mp h
      obtain ⟨_, hbody, h⟩ := bind_eq_ok.mp h
      obtain ⟨-, _, ending, hpath, hmem⟩ :=
        checkAll_reaches .start hbody hpos
      -- one round is enough
      cases ending with
      | returns => exact ⟨_, _, .loop (.stops hpath), List.mem_cons_of_mem _
          (List.mem_map_of_mem hmem)⟩
      | goesOn => exact ⟨_, _, .loop (.again hpath .none),
          List.mem_cons_of_mem _ (List.mem_map_of_mem
            (List.mem_append_left _ hmem))⟩

/-- **Nothing in statements is out of reach** that come after code with an
exact summary, and that code can go on to them. -/
theorem checkAll_reaches {scope : Scope} {summary : Returns}
    {canReturn canGoOn : Prop}
    (hsummary : summary.Exact expected canReturn canGoOn)
    {stmts : List (Stmt Span)} {c : Checked (List (Stmt Judged))}
    (h : checkAll sigs expected scope summary stmts = .ok c)
    {before : List (Stmt Span)} {pos : Position}
    {found : List (Stmt Span) × Stmt Span}
    (hpos : locate? before stmts pos = some found) :
    canGoOn ∧ Reaches stmts pos := by
  match stmts with
  | [] =>
    rw [locate?_nil] at hpos
    cases hpos
  | stmt :: stmts =>
    obtain ⟨_, hfirst, h⟩ := bind_eq_ok.mp h
    obtain ⟨_, hthen, h⟩ := bind_eq_ok.mp h
    obtain ⟨_, hrest, h⟩ := bind_eq_ok.mp h
    cases pure_eq_ok.mp h
    have hthen := Returns.sequence_eq_ok.mp hthen
    rcases locate?_cons.mp hpos with ⟨pos, rfl, hpos⟩ | hpos
    · have hmid := hsummary.sequence (check_exact hfirst) hthen
      obtain ⟨⟨hgoOn, _, hpath⟩, _, _, hothers, hmem⟩ :=
        checkAll_reaches hmid hrest hpos
      exact ⟨hgoOn, _, _, .cons hpath hothers, List.mem_append_right _
        (List.mem_map_of_mem hmem)⟩
    · refine ⟨hsummary.canGoOn_of_then hthen, ?_⟩
      obtain ⟨_, ending, hpath, hmem⟩ := check_reaches hfirst hpos
      cases ending with
      | returns => exact ⟨_, _, .stops hpath, hmem⟩
      | goesOn =>
        -- any path through the others continues this one to an end
        obtain ⟨_, _, hothers⟩ := exists_pathAll stmts
        exact ⟨_, _, .cons hpath hothers, List.mem_append_left _ hmem⟩

end

end Stmt

end Primer
