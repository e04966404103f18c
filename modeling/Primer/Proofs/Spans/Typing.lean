import Primer.Proofs.Spans.Basic

/-!
# Checking a moved program

The check of a moved program is the check of the program, moved: it succeeds if
that succeeds, with the moved tree and the same scopes, and it is refused if
that is refused, for the same cause at the moved place. It does not matter how
a program is moved, so the check looks into no span and compares no two of them.

Each function of the checker has a lemma of this shape, `Check.moved` saying
what becomes of its result. What is left to say of a sequence of steps is said
once, by `Check.moved_bind`.
-/

namespace Primer

/-! ## Results -/

namespace Check

variable {β β' γ γ' : Type} {f : Span → Span}

/-- **The result of a check at another place**: an error is moved, and what was
checked is what `g` makes of it. -/
def moved (f : Span → Span) (g : β → γ) : Check β → Check γ
  | .ok b => .ok (g b)
  | .error e => .error (e.moved f)

/-- **One step after another**: if each gives the moved result, both do. -/
theorem moved_bind {x : Check β} {x' : Check β'} {k : β → Check γ}
    {k' : β' → Check γ'} {g : β → β'} {h : γ → γ'} (hx : x' = moved f g x)
    (hk : ∀ b, k' (g b) = moved f h (k b)) :
    (x' >>= k') = moved f h (x >>= k) := by
  cases x with
  | ok b =>
    rw [hx]
    exact hk b
  | error e =>
    rw [hx]
    rfl

/-- **A step that gives the same result** at the other place, and what comes
after it. -/
theorem moved_after {x x' : Check β} {k : β → Check γ} {k' : β → Check γ'}
    {h : γ → γ'} (hx : x' = moved f id x)
    (hk : ∀ b, k' b = moved f h (k b)) :
    (x' >>= k') = moved f h (x >>= k) :=
  moved_bind hx hk

theorem moved_ite (f : Span → Span) {p : Prop} [Decidable p] (b : β)
    (cause : Cause) (span : Span) :
    (if p then .ok b else refuse cause (f span))
      = moved f id (if p then .ok b else refuse cause span) := by
  split <;> rfl

theorem moved_require (f : Span → Span) (holds : Bool) (cause : Cause)
    (span : Span) :
    require holds cause (f span) = moved f id (require holds cause span) :=
  moved_ite f () cause span

end Check

open Check

variable {sigs : Signatures} {scope : Scope} (f : Span → Span)

/-! ## Expressions -/

theorem Signatures.forCall_moved (callee : Ident) (found : Nat)
    (span : Span) :
    sigs.forCall callee found (f span)
      = moved f id (sigs.forCall callee found span) := by
  unfold forCall
  split
  · rfl
  · exact moved_ite f _ _ span

theorem Scope.typeOf_moved (name : Ident) (span : Span) :
    scope.typeOf name (f span) = moved f id (scope.typeOf name span) := by
  unfold typeOf
  split <;> rfl

theorem BinOp.admit_moved (op : BinOp) (lhs rhs : Ty) (span : Span) :
    op.admit lhs rhs (f span) = moved f id ( op.admit lhs rhs span) := by
  unfold BinOp.admit
  split
  · rfl
  · exact moved_require f _ _ span

namespace Expr

theorem expectValue_moved (e : Expr Judged) (expected : Ty) :
    (e.moved f).expectValue expected
      = Check.moved f id (e.expectValue expected) := by
  unfold expectValue
  rw [ty_moved, span_moved]
  exact moved_require f _ _ e.span

theorem expectOperand_moved (e : Expr Judged) (operator : Operator)
    (expected : Ty) :
    (e.moved f).expectOperand operator expected
      = Check.moved f id (e.expectOperand operator expected) := by
  unfold expectOperand
  rw [ty_moved, span_moved]
  exact moved_require f _ _ e.span

theorem expectConvertible_moved (e : Expr Judged) (target : Conversion) :
    (e.moved f).expectConvertible target
      = Check.moved f id (e.expectConvertible target) := by
  unfold expectConvertible
  rw [ty_moved, span_moved]
  exact moved_require f _ _ e.span

theorem expectArgument_moved (e : Expr Judged) (callee : Ident)
    (index : Nat) (expected : Ty) :
    (e.moved f).expectArgument callee index expected
      = Check.moved f id (e.expectArgument callee index expected) := by
  unfold expectArgument
  rw [ty_moved, span_moved]
  exact moved_require f _ _ e.span

mutual

/-- **The check of a moved expression** is the check of the expression,
moved. -/
theorem check_moved (e : Expr Span) :
    check sigs scope (e.moved f)
      = Check.moved f (moved f) (check sigs scope e) := by
  match e with
  | .lit _ _ => rfl
  | .var span name =>
    exact moved_after (scope.typeOf_moved f name span) fun _ => rfl
  | .binary span op lhs rhs =>
    refine moved_bind (check_moved lhs) fun lhs =>
      moved_bind (check_moved rhs) fun rhs =>
        moved_after ?_ fun _ => rfl
    rw [ty_moved, ty_moved]
    exact op.admit_moved f lhs.ty rhs.ty span
  | .not _ operand =>
    exact moved_bind (check_moved operand) fun operand =>
      moved_after (operand.expectOperand_moved f .not .bool) fun _ => rfl
  | .input _ prompt =>
    exact moved_bind (check_moved prompt) fun prompt =>
      moved_after (prompt.expectOperand_moved f .input .str) fun _ => rfl
  | .convert _ target operand =>
    exact moved_bind (check_moved operand) fun operand =>
      moved_after (operand.expectConvertible_moved f target) fun _ => rfl
  | .call span callee args =>
    refine moved_after ?_ fun sig =>
      moved_bind (checkArgs_moved callee 0 sig.params args) fun _ => rfl
    rw [length_movedAll]
    exact sigs.forCall_moved f callee args.length span

/-- The check of moved arguments is the check of the arguments, moved. -/
theorem checkArgs_moved (callee : Ident) (index : Nat) (params : List Ty)
    (args : List (Expr Span)) :
    checkArgs sigs scope callee index params (movedAll f args)
      = Check.moved f (movedAll f)
        (checkArgs sigs scope callee index params args) := by
  match params, args with
  | [], [] | [], _ :: _ | _ :: _, [] => rfl
  | param :: params, arg :: args =>
    exact moved_bind (check_moved arg) fun arg =>
      moved_after (arg.expectArgument_moved f callee index param) fun _ =>
        moved_bind (checkArgs_moved callee (index + 1) params args)
          fun _ => rfl

end

theorem checkAll_moved (es : List (Expr Span)) :
    checkAll sigs scope (movedAll f es)
      = Check.moved f (movedAll f) (checkAll sigs scope es) := by
  induction es with
  | nil => rfl
  | cons e es ih =>
    exact moved_bind (e.check_moved f) fun _ => moved_bind ih fun _ => rfl

end Expr

/-! ## Statements -/

/-- One piece comes after another at the moved place. -/
theorem Returns.sequence_moved (first second : Returns) (span : Span) :
    first.sequence second (f span)
      = moved f id (first.sequence second span) := by
  unfold sequence
  split
  · rfl
  · rfl
  · rfl
  · exact moved_ite f _ _ span
  · exact moved_ite f _ _ span

/-- Two pieces stand side by side at the moved place. -/
theorem Returns.merge_moved (one other : Returns) (span : Span) :
    one.merge other (f span) = moved f id (one.merge other span) := by
  unfold merge
  split
  · rfl
  · rfl
  all_goals exact moved_ite f _ _ span

/-- What checking gives, with the code at another place. -/
def Checked.moved {σ τ : Type} (g : σ → τ) (c : Checked σ) : Checked τ :=
  ⟨g c.code, c.returns, c.scope⟩

namespace Stmt

variable {expected : Expected}

theorem bind_moved (name : Ident) (ty : Ty) (span : Span) :
    bind scope name ty (f span)
      = Check.moved f id (bind scope name ty span) := by
  unfold bind
  split <;> rfl

theorem checkCondition_moved (construct : Construct) (cond : Expr Span) :
    checkCondition sigs scope construct (cond.moved f)
      = Check.moved f (Expr.moved f)
        (checkCondition sigs scope construct cond) := by
  refine moved_bind (cond.check_moved f) fun cond =>
    moved_after ?_ fun _ => rfl
  rw [Expr.ty_moved, Expr.span_moved]
  exact moved_require f _ _ cond.span

mutual

/-- **The check of a moved statement** is the check of the statement, moved. It
fills the scope in the same way. -/
theorem check_moved (scope : Scope) (stmt : Stmt Span) :
    check sigs expected scope (stmt.moved f)
      = Check.moved f (Checked.moved (moved f))
        (check sigs expected scope stmt) := by
  match stmt with
  | .introduce span name ty init =>
    exact moved_bind (init.check_moved f) fun init =>
      moved_after (init.expectValue_moved f ty) fun _ =>
        moved_after (bind_moved f name ty span) fun _ => rfl
  | .assign span name value =>
    exact moved_after (scope.typeOf_moved f name span) fun target =>
      moved_bind (value.check_moved f) fun value =>
        moved_after (value.expectValue_moved f target) fun _ => rfl
  | .update span op name operand =>
    exact moved_after (scope.typeOf_moved f name span) fun target =>
      moved_after (moved_require f _ _ span) fun _ =>
        moved_bind (operand.check_moved f) fun operand =>
          moved_after (operand.expectValue_moved f target) fun _ => rfl
  | .pass _ => rfl
  | .print _ args =>
    exact moved_bind (Expr.checkAll_moved f args) fun _ => rfl
  | .ret span value =>
    cases expected with
    | none => rfl
    | some ty =>
      refine moved_bind (value.check_moved f) fun value =>
        moved_after ?_ fun _ => rfl
      rw [Expr.ty_moved, Expr.span_moved]
      exact moved_require f _ _ value.span
  | .retUnit span =>
    cases expected with
    | none => rfl
    | some ty => exact moved_after (moved_require f _ _ span) fun _ => rfl
  | .call span callee args =>
    refine moved_after ?_ fun sig =>
      moved_bind (Expr.checkArgs_moved f callee 0 sig.params args) fun _ =>
        moved_after (moved_require f _ _ span) fun _ => rfl
    rw [Expr.length_movedAll]
    exact sigs.forCall_moved f callee args.length span
  | .ifElse span cond ⟨thenStmts, _⟩ ⟨elseStmts, _⟩ =>
    exact moved_bind (checkCondition_moved f .ifElse cond) fun _ =>
      moved_bind (checkAll_moved scope .never thenStmts) fun one =>
        moved_bind (checkAll_moved one.scope .never elseStmts) fun other =>
          moved_after (one.returns.merge_moved f other.returns span)
            fun _ => rfl
  | .whileLoop _ cond ⟨bodyStmts, _⟩ =>
    exact moved_bind (checkCondition_moved f .whileLoop cond) fun _ =>
      moved_bind (checkAll_moved scope .never bodyStmts) fun _ => rfl

/-- The check of moved statements is the check of the statements, moved. -/
theorem checkAll_moved (scope : Scope) (before : Returns)
    (stmts : List (Stmt Span)) :
    checkAll sigs expected scope before (movedAll f stmts)
      = Check.moved f (Checked.moved (movedAll f))
        (checkAll sigs expected scope before stmts) := by
  match stmts with
  | [] => rfl
  | stmt :: stmts =>
    refine moved_bind (check_moved scope stmt) fun first =>
      moved_after ?_ fun returns =>
        moved_bind (checkAll_moved first.scope returns stmts) fun _ => rfl
    rw [span_moved]
    exact before.sequence_moved f first.returns stmt.span

end

end Stmt

theorem Block.check_moved {expected : Stmt.Expected} (scope : Scope)
    (block : Block (Stmt Span)) :
    (block.moved f).check sigs expected scope
      = Check.moved f (Checked.moved (Block.moved f))
        (block.check sigs expected scope) :=
  moved_bind (Stmt.checkAll_moved f scope .never block.stmts) fun _ => rfl

/-! ## Programs -/

namespace Definition

/-- Parameters are bound at the moved place. -/
theorem bindParams_moved (scope : Scope) (nameSpan : Span)
    (params : List (Ident × Ty)) :
    bindParams scope (f nameSpan) params
      = Check.moved f id (bindParams scope nameSpan params) := by
  induction params generalizing scope with
  | nil => rfl
  | cons param params ih =>
    rw [bindParams, bindParams]
    split
    · exact ih _
    · rfl

theorem expectReturn_moved (name : Ident) (ret : Ty) (returns : Returns)
    (span : Span) :
    expectReturn name ret returns (f span)
      = Check.moved f id (expectReturn name ret returns span) := by
  cases returns with
  | always ty => exact moved_require f _ _ span
  | maybe _ => rfl
  | never => rfl

/-- **The check of a moved definition** is the check of the definition,
moved. -/
theorem check_moved (d : Definition Span) :
    (d.moved f).check sigs
      = Check.moved f (Prod.map (moved f) id) (d.check sigs) :=
  moved_after (bindParams_moved f (.empty d.name) d.nameSpan d.params)
    fun scope => moved_bind (d.body.check_moved f scope) fun body =>
      moved_after
        (expectReturn_moved f d.name d.ret body.returns body.code.span)
        fun _ => rfl

theorem checkAll_moved (ds : List (Definition Span)) :
    checkAll sigs (ds.map (moved f))
      = Check.moved f (List.map (Prod.map (moved f) id))
        (checkAll sigs ds) := by
  induction ds with
  | nil => rfl
  | cons d ds ih =>
    exact moved_bind (d.check_moved f) fun _ => moved_bind ih fun _ => rfl

/-- A name that is taken is taken at the moved place. -/
theorem expectDistinct_moved (earlier : List Ident)
    (ds : List (Definition Span)) :
    expectDistinct earlier (ds.map (moved f))
      = Check.moved f id (expectDistinct earlier ds) := by
  induction ds generalizing earlier with
  | nil => rfl
  | cons d ds ih =>
    rw [List.map_cons, expectDistinct, expectDistinct]
    show (if d.name = Program.entryPoint ∨ d.name ∈ earlier then _ else _) = _
    split
    · rfl
    · exact ih _

end Definition

/-- **The check of a moved program** is the check of the program, moved. -/
theorem Program.check_moved (p : Program Span) :
    (p.moved f).check = Check.moved f (TypedProgram.moved f) p.check := by
  unfold check
  rw [p.signature?_moved f]
  refine moved_after (Definition.expectDistinct_moved f [] p.definitions)
    fun _ => moved_bind (Definition.checkAll_moved f p.definitions) fun ds =>
      moved_bind (p.main.check_moved f (.empty entryPoint)) fun main => ?_
  have hdefinitions : (ds.map (Prod.map (Definition.moved f) id)).map Prod.fst
      = (ds.map Prod.fst).map (Definition.moved f) := by
    rw [List.map_map, List.map_map]
    rfl
  have hscopes : (ds.map (Prod.map (Definition.moved f) id)).map Prod.snd
      = ds.map Prod.snd := by
    rw [List.map_map]
    rfl
  rw [hdefinitions, hscopes]
  rfl

end Primer
