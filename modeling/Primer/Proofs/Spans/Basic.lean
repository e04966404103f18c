import Primer.Compile

/-!
# Programs at other places

A program is *moved* by a function on spans, which says of every place in the
text what the new place is. Nothing is asked of the function: it may send two
spans to one, or a span to one that lies elsewhere or makes no sense. A node of
the program is moved by its own span and keeps everything else, so a moved
program says the same thing as the program and is reported on elsewhere.

Which spans a program has can be listed (`Program.spans`), and a function that
leaves these alone leaves the program alone (`Program.moved_eq_self`). There is
always a function that leaves these alone and no others (`Span.unlessIn`). With
the two, a statement about all functions on spans is also one about which spans
can come out of a program.
-/

namespace Primer

/-! ## Moving -/

/-- **A note that has a span** and can be moved. -/
class Located (α : Type) where
  /-- The note at another place. -/
  moved : (Span → Span) → α → α

/-- A span is moved itself. -/
instance : Located Span := ⟨id⟩

/-- A judgement keeps the type. -/
instance : Located Judged := ⟨fun f note => ⟨f note.span, note.ty⟩⟩

variable {α : Type} [Located α]

namespace Expr

mutual

/-- **The expression at another place.** -/
def moved (f : Span → Span) : Expr α → Expr α
  | lit note value => lit (Located.moved f note) value
  | var note name => var (Located.moved f note) name
  | binary note op lhs rhs =>
    binary (Located.moved f note) op (moved f lhs) (moved f rhs)
  | not note operand => not (Located.moved f note) (moved f operand)
  | input note prompt => input (Located.moved f note) (moved f prompt)
  | convert note target operand =>
    convert (Located.moved f note) target (moved f operand)
  | call note callee args =>
    call (Located.moved f note) callee (movedAll f args)

/-- The expressions at other places. -/
def movedAll (f : Span → Span) : List (Expr α) → List (Expr α)
  | [] => []
  | e :: rest => moved f e :: movedAll f rest

end

theorem note_moved (f : Span → Span) (e : Expr α) :
    (e.moved f).note = Located.moved f e.note := by
  cases e <;> rfl

@[simp] theorem ty_moved (f : Span → Span) (e : Expr Judged) :
    (e.moved f).ty = e.ty := by
  rw [ty, note_moved]
  rfl

@[simp] theorem span_moved (f : Span → Span) (e : Expr Judged) :
    (e.moved f).span = f e.span := by
  rw [span, note_moved]
  rfl

@[simp] theorem length_movedAll (f : Span → Span) (es : List (Expr α)) :
    (movedAll f es).length = es.length := by
  induction es with
  | nil => rfl
  | cons e es ih => rw [movedAll, List.length_cons, ih, List.length_cons]

end Expr

namespace Stmt

mutual

/-- **The statement at another place.** -/
def moved (f : Span → Span) : Stmt α → Stmt α
  | introduce span name ty init => introduce (f span) name ty (init.moved f)
  | assign span name value => assign (f span) name (value.moved f)
  | update span op name operand =>
    update (f span) op name (operand.moved f)
  | pass span => pass (f span)
  | print span args => print (f span) (Expr.movedAll f args)
  | ret span value => ret (f span) (value.moved f)
  | retUnit span => retUnit (f span)
  | call span callee args => call (f span) callee (Expr.movedAll f args)
  | ifElse span cond thenBlock elseBlock =>
    ifElse (f span) (cond.moved f)
      ⟨movedAll f thenBlock.stmts, f thenBlock.span⟩
      ⟨movedAll f elseBlock.stmts, f elseBlock.span⟩
  | whileLoop span cond body =>
    whileLoop (f span) (cond.moved f) ⟨movedAll f body.stmts, f body.span⟩

/-- The statements at other places. -/
def movedAll (f : Span → Span) : List (Stmt α) → List (Stmt α)
  | [] => []
  | stmt :: rest => moved f stmt :: movedAll f rest

end

@[simp] theorem span_moved (f : Span → Span) (stmt : Stmt α) :
    (stmt.moved f).span = f stmt.span := by
  cases stmt <;> rfl

end Stmt

/-- The block at another place. -/
def Block.moved (f : Span → Span) (b : Block (Stmt α)) : Block (Stmt α) :=
  ⟨Stmt.movedAll f b.stmts, f b.span⟩

/-- **The definition at another place.** -/
def Definition.moved (f : Span → Span) (d : Definition α) : Definition α :=
  { d with body := d.body.moved f, nameSpan := f d.nameSpan }

/-- **The program at another place**: every statement, expression, block and
name in it is moved. -/
def Program.moved (f : Span → Span) (p : Program α) : Program α :=
  ⟨p.definitions.map (·.moved f), p.main.moved f⟩

theorem Program.signature?_moved (f : Span → Span) (p : Program α) :
    (p.moved f).signature? = p.signature? := by
  funext name
  unfold signature? moved
  rw [List.find?_map, Option.map_map]
  rfl

/-- **The checked program at another place**, with the same symbols. -/
def TypedProgram.moved (f : Span → Span) (typed : TypedProgram) :
    TypedProgram :=
  ⟨typed.program.moved f, typed.symbols⟩

/-- The type error at another place, for the same cause. -/
def TypeError.moved (f : Span → Span) (e : TypeError) : TypeError :=
  ⟨e.cause, f e.span⟩

/-- The emission error at another place, if it has one. -/
def EmissionError.moved (f : Span → Span) : EmissionError → EmissionError
  | missingScope owner => missingScope owner
  | duplicateEntry name => duplicateEntry name
  | unconvertible target span => unconvertible target (f span)

/-- **The error of a compilation at another place.** -/
def CompileError.moved (f : Span → Span) : CompileError → CompileError
  | typing error => typing (error.moved f)
  | emission error => emission (error.moved f)

/-- **What is said about a moved error** is said about the moved places, in
the same words. -/
theorem CompileError.diagnostic_moved (f : Span → Span) (e : CompileError) :
    (e.moved f).diagnostic = { e.diagnostic with
      remarks := e.diagnostic.remarks.map fun r => ⟨r.text, f r.span⟩ } := by
  cases e with
  | typing e => rfl
  | emission e => cases e <;> rfl

/-! ## The spans of a program -/

namespace Expr

mutual

/-- **The spans of an expression** and of its parts. -/
def spans : Expr Span → List Span
  | lit span _ | var span _ => [span]
  | binary span _ lhs rhs => span :: (spans lhs ++ spans rhs)
  | not span operand => span :: spans operand
  | input span prompt => span :: spans prompt
  | convert span _ operand => span :: spans operand
  | call span _ args => span :: spansAll args

/-- The spans of expressions. -/
def spansAll : List (Expr Span) → List Span
  | [] => []
  | e :: rest => spans e ++ spansAll rest

end

end Expr

namespace Stmt

mutual

/-- **The spans of a statement** and of its parts. -/
def spans : Stmt Span → List Span
  | introduce span _ _ value | assign span _ value | update span _ _ value
  | ret span value => span :: value.spans
  | pass span | retUnit span => [span]
  | print span args | call span _ args => span :: Expr.spansAll args
  | ifElse span cond thenBlock elseBlock =>
    span :: (cond.spans ++ (thenBlock.span :: spansAll thenBlock.stmts)
      ++ (elseBlock.span :: spansAll elseBlock.stmts))
  | whileLoop span cond body =>
    span :: (cond.spans ++ (body.span :: spansAll body.stmts))

/-- The spans of statements. -/
def spansAll : List (Stmt Span) → List Span
  | [] => []
  | stmt :: rest => spans stmt ++ spansAll rest

end

end Stmt

/-- The spans of a block and of its statements. -/
def Block.spans (b : Block (Stmt Span)) : List Span :=
  b.span :: Stmt.spansAll b.stmts

/-- The spans of a definition: that of its name, and those of its body. -/
def Definition.spans (d : Definition Span) : List Span :=
  d.nameSpan :: d.body.spans

/-- **The spans of a program.** -/
def Program.spans (p : Program Span) : List Span :=
  p.definitions.flatMap Definition.spans ++ p.main.spans

/-! ## Functions that leave a program alone -/

variable {f : Span → Span}

namespace Expr

mutual

/-- An expression stays if its spans stay. -/
theorem moved_eq_self {e : Expr Span} (h : ∀ s ∈ e.spans, f s = s) :
    e.moved f = e := by
  match e with
  | .lit span value => exact congrArg (lit · value) (h span (by simp [spans]))
  | .var span name => exact congrArg (var · name) (h span (by simp [spans]))
  | .binary span op lhs rhs =>
    rw [spans, List.forall_mem_cons, List.forall_mem_append] at h
    rw [moved, moved_eq_self h.2.1, moved_eq_self h.2.2]
    exact congrArg (binary · op lhs rhs) h.1
  | .not span operand =>
    rw [spans, List.forall_mem_cons] at h
    rw [moved, moved_eq_self h.2]
    exact congrArg (not · operand) h.1
  | .input span prompt =>
    rw [spans, List.forall_mem_cons] at h
    rw [moved, moved_eq_self h.2]
    exact congrArg (input · prompt) h.1
  | .convert span target operand =>
    rw [spans, List.forall_mem_cons] at h
    rw [moved, moved_eq_self h.2]
    exact congrArg (convert · target operand) h.1
  | .call span callee args =>
    rw [spans, List.forall_mem_cons] at h
    rw [moved, movedAll_eq_self h.2]
    exact congrArg (call · callee args) h.1

/-- Expressions stay if their spans stay. -/
theorem movedAll_eq_self {es : List (Expr Span)}
    (h : ∀ s ∈ spansAll es, f s = s) : movedAll f es = es := by
  match es with
  | [] => rfl
  | e :: es =>
    rw [spansAll, List.forall_mem_append] at h
    rw [movedAll, moved_eq_self h.1, movedAll_eq_self h.2]

end

end Expr

namespace Stmt

mutual

/-- A statement stays if its spans stay. -/
theorem moved_eq_self {stmt : Stmt Span} (h : ∀ s ∈ stmt.spans, f s = s) :
    stmt.moved f = stmt := by
  match stmt with
  | .pass span => exact congrArg pass (h span (by simp [spans]))
  | .retUnit span => exact congrArg retUnit (h span (by simp [spans]))
  | .introduce _ _ _ value | .assign _ _ value | .update _ _ _ value
  | .ret _ value =>
    rw [spans, List.forall_mem_cons] at h
    rw [moved, h.1, value.moved_eq_self h.2]
  | .print _ args | .call _ _ args =>
    rw [spans, List.forall_mem_cons] at h
    rw [moved, h.1, Expr.movedAll_eq_self h.2]
  | .ifElse _ cond ⟨thenStmts, _⟩ ⟨elseStmts, _⟩ =>
    rw [spans, List.forall_mem_cons, List.forall_mem_append,
      List.forall_mem_append, List.forall_mem_cons,
      List.forall_mem_cons] at h
    obtain ⟨hspan, ⟨hcond, hthenSpan, hthen⟩, helseSpan, helse⟩ := h
    rw [moved, hspan, cond.moved_eq_self hcond, hthenSpan,
      movedAll_eq_self hthen, helseSpan, movedAll_eq_self helse]
  | .whileLoop _ cond ⟨stmts, _⟩ =>
    rw [spans, List.forall_mem_cons, List.forall_mem_append,
      List.forall_mem_cons] at h
    obtain ⟨hspan, hcond, hbodySpan, hbody⟩ := h
    rw [moved, hspan, cond.moved_eq_self hcond, hbodySpan,
      movedAll_eq_self hbody]

/-- Statements stay if their spans stay. -/
theorem movedAll_eq_self {stmts : List (Stmt Span)}
    (h : ∀ s ∈ spansAll stmts, f s = s) : movedAll f stmts = stmts := by
  match stmts with
  | [] => rfl
  | stmt :: stmts =>
    rw [spansAll, List.forall_mem_append] at h
    rw [movedAll, moved_eq_self h.1, movedAll_eq_self h.2]

end

end Stmt

theorem Block.moved_eq_self {b : Block (Stmt Span)}
    (h : ∀ s ∈ b.spans, f s = s) : b.moved f = b := by
  rw [spans, List.forall_mem_cons] at h
  rw [moved, h.1, Stmt.movedAll_eq_self h.2]

theorem Definition.moved_eq_self {d : Definition Span}
    (h : ∀ s ∈ d.spans, f s = s) : d.moved f = d := by
  rw [spans, List.forall_mem_cons] at h
  rw [moved, h.1, d.body.moved_eq_self h.2]

/-- **A program stays if its spans stay.** -/
theorem Program.moved_eq_self {p : Program Span}
    (h : ∀ s ∈ p.spans, f s = s) : p.moved f = p := by
  rw [spans, List.forall_mem_append] at h
  have hdefinitions : p.definitions.map (·.moved f) = p.definitions :=
    (List.map_congr_left fun d hd => d.moved_eq_self fun s hs =>
      h.1 s (List.mem_flatMap.mpr ⟨d, hd, hs⟩)).trans p.definitions.map_id
  rw [moved, hdefinitions, p.main.moved_eq_self h.2]

/-- The function that leaves the spans of a list alone and no others. -/
def Span.unlessIn (spans : List Span) (s : Span) : Span :=
  if s ∈ spans then s else ⟨s.start + 1, s.stop⟩

/-- It does so. -/
theorem Span.unlessIn_eq_self {spans : List Span} {s : Span} :
    s.unlessIn spans = s ↔ s ∈ spans := by
  unfold unlessIn
  split
  · next hs => exact iff_of_true rfl hs
  · next hs =>
    refine iff_of_false (fun heq => ?_) hs
    have hstart : s.start + 1 = s.start := congrArg Span.start heq
    exact absurd (UInt64.add_eq_left.mp hstart) (by decide)

end Primer
