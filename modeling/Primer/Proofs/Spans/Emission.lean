import Primer.Proofs.Machine.Control
import Primer.Proofs.Spans.Typing

/-!
# Emitting code for a moved program

The code of a moved tree is the code of the tree, with the same symbol table
after it: the emitter reads the types that are noted on expressions and never
the spans. Only one of its errors has a place, and that is moved.

With the check before it this makes compiling indifferent to places
(`Program.compile_moved`), and the places that a compilation reports on have to
come from the program: a function that leaves the spans of the program alone
leaves the program alone, so it leaves the error alone, and there is one that
leaves nothing else alone (`Program.remark_mem_spans`).
-/

namespace Primer

variable (f : Span → Span) (site : Site)

theorem EmissionError.orElse_moved (x y : Option EmissionError) :
    (x.map (moved f) <|> y.map (moved f)) = (x <|> y).map (moved f) := by
  cases x <;> rfl

/-! ## Expressions -/

namespace Expr

mutual

/-- **The code of a moved expression** is that of the expression. -/
theorem emit_moved (e : Expr Judged) :
    (e.moved f).emit site = e.emit site := by
  match e with
  | .lit _ _ | .var _ _ => rfl
  | .binary _ (.arith _) lhs rhs =>
    rw [moved, emit, emit, emit_moved lhs, emit_moved rhs, ty_moved, ty_moved]
    rfl
  | .binary _ (.compare _) lhs rhs =>
    rw [moved, emit, emit, emit_moved lhs, emit_moved rhs, ty_moved, ty_moved]
  | .binary _ (.logic .and) lhs rhs | .binary _ (.logic .or) lhs rhs =>
    rw [moved, emit, emit, emit_moved lhs, emit_moved rhs]
  | .not _ operand => rw [moved, emit, emit, emit_moved operand]
  | .input _ prompt =>
    rw [moved, emit, emit, emit_moved prompt]
    rfl
  | .convert _ _ operand =>
    rw [moved, emit, emit, emit_moved operand, ty_moved]
    rfl
  | .call _ _ args =>
    rw [moved, emit, emit, emitArgs_moved args]
    rfl

/-- The code of moved arguments is that of the arguments. -/
theorem emitArgs_moved (args : List (Expr Judged)) :
    emitArgs site (movedAll f args) = emitArgs site args := by
  match args with
  | [] => rfl
  | arg :: args =>
    rw [movedAll, emitArgs, emitArgs, emit_moved arg, ty_moved,
      emitArgs_moved args]

end

theorem emitValue_moved (e : Expr Judged) :
    (e.moved f).emitValue site = e.emitValue site :=
  funext fun dst => congrFun (e.emit_moved f site) (.store dst)

/-- The code that branches on a moved value is the one that branches on the
value. -/
theorem emitCondition_moved (e : Expr Judged) :
    (e.moved f).emitCondition site = e.emitCondition site :=
  funext fun yes => funext fun no =>
    congrFun (e.emit_moved f site) (.branch yes no)

mutual

/-- A moved expression has the same conversions, moved. -/
theorem unconvertible?_moved (e : Expr Judged) :
    (e.moved f).unconvertible?
      = e.unconvertible?.map (EmissionError.moved f) := by
  match e with
  | .lit _ _ | .var _ _ => rfl
  | .binary _ _ lhs rhs =>
    rw [moved, unconvertible?, unconvertible?_moved lhs,
      unconvertible?_moved rhs, EmissionError.orElse_moved, unconvertible?]
  | .not _ operand | .input _ operand => exact unconvertible?_moved operand
  | .convert _ _ operand =>
    rw [moved, unconvertible?, unconvertible?, unconvertible?_moved operand,
      ty_moved]
    split <;> rfl
  | .call _ _ args => exact anyUnconvertible?_moved args

/-- Moved expressions have the same conversions, moved. -/
theorem anyUnconvertible?_moved (es : List (Expr Judged)) :
    anyUnconvertible? (movedAll f es)
      = (anyUnconvertible? es).map (EmissionError.moved f) := by
  match es with
  | [] => rfl
  | e :: es =>
    rw [movedAll, anyUnconvertible?, unconvertible?_moved e,
      anyUnconvertible?_moved es, EmissionError.orElse_moved,
      anyUnconvertible?]

end

end Expr

/-! ## Statements -/

namespace Site

theorem printArg_moved (arg : Expr Judged) :
    site.printArg (arg.moved f) = site.printArg arg := by
  unfold printArg
  rw [arg.emitValue_moved, arg.emitCondition_moved, Expr.ty_moved]

theorem printMore_moved (args : List (Expr Judged)) :
    site.printMore (Expr.movedAll f args) = site.printMore args := by
  induction args with
  | nil => rfl
  | cons arg args ih =>
    rw [Expr.movedAll, printMore, printMore, printArg_moved, ih]

theorem printArgs_moved (args : List (Expr Judged)) :
    site.printArgs (Expr.movedAll f args) = site.printArgs args := by
  cases args with
  | nil => rfl
  | cons arg args =>
    rw [Expr.movedAll, printArgs, printArgs, printArg_moved, printMore_moved]

end Site

namespace Stmt

mutual

/-- **The code of a moved statement** is that of the statement. -/
theorem emit_moved (stmt : Stmt Judged) :
    (stmt.moved f).emit site = stmt.emit site := by
  match stmt with
  | .introduce _ _ _ value | .assign _ _ value =>
    rw [moved, emit, emit, value.emitValue_moved]
  | .update _ _ _ operand =>
    rw [moved, emit, emit, operand.emitValue_moved, Expr.ty_moved]
  | .pass _ | .retUnit _ => rfl
  | .print _ args => rw [moved, emit, emit, site.printArgs_moved f args]
  | .ret _ value =>
    rw [moved, emit, emit, value.emitValue_moved, Expr.ty_moved]
  | .call _ _ args =>
    rw [moved, emit, emit, Expr.emitCall, Expr.emitCall,
      Expr.emitArgs_moved f site args]
  | .ifElse _ cond ⟨thenStmts, _⟩ ⟨elseStmts, _⟩ =>
    rw [moved, emit, emit, cond.emitCondition_moved, emitAll_moved thenStmts,
      emitAll_moved elseStmts]
  | .whileLoop _ cond ⟨bodyStmts, _⟩ =>
    rw [moved, emit, emit, cond.emitCondition_moved, emitAll_moved bodyStmts]

theorem emitAll_moved (stmts : List (Stmt Judged)) :
    emitAll site (movedAll f stmts) = emitAll site stmts := by
  match stmts with
  | [] => rfl
  | stmt :: stmts =>
    rw [movedAll, emitAll, emitAll, emit_moved stmt, emitAll_moved stmts]

end

mutual

/-- A moved statement has the same conversions, moved. -/
theorem unconvertible?_moved (stmt : Stmt Judged) :
    (stmt.moved f).unconvertible?
      = stmt.unconvertible?.map (EmissionError.moved f) := by
  match stmt with
  | .introduce _ _ _ value | .assign _ _ value | .update _ _ _ value
  | .ret _ value => exact value.unconvertible?_moved f
  | .pass _ | .retUnit _ => rfl
  | .print _ args | .call _ _ args => exact Expr.anyUnconvertible?_moved f args
  | .ifElse _ cond ⟨thenStmts, _⟩ ⟨elseStmts, _⟩ =>
    rw [moved, unconvertible?, cond.unconvertible?_moved,
      anyUnconvertible?_moved thenStmts, anyUnconvertible?_moved elseStmts,
      EmissionError.orElse_moved, EmissionError.orElse_moved, unconvertible?]
  | .whileLoop _ cond ⟨bodyStmts, _⟩ =>
    rw [moved, unconvertible?, cond.unconvertible?_moved,
      anyUnconvertible?_moved bodyStmts, EmissionError.orElse_moved,
      unconvertible?]

/-- Moved statements have the same conversions, moved. -/
theorem anyUnconvertible?_moved (stmts : List (Stmt Judged)) :
    anyUnconvertible? (movedAll f stmts)
      = (anyUnconvertible? stmts).map (EmissionError.moved f) := by
  match stmts with
  | [] => rfl
  | stmt :: stmts =>
    rw [movedAll, anyUnconvertible?, unconvertible?_moved stmt,
      anyUnconvertible?_moved stmts, EmissionError.orElse_moved,
      anyUnconvertible?]

end

end Stmt

/-! ## Programs -/

/-- **The routine of a moved body** is that of the body. -/
theorem emitRoutine_moved (constants : Constants) (table : SymbolTable)
    (name : Ident) (params : List (Slot × Ty)) (ret : Ty)
    (body : Block (Stmt Judged)) :
    emitRoutine constants table name params ret (body.moved f)
      = (emitRoutine constants table name params ret body).mapError
        (EmissionError.moved f) := by
  unfold emitRoutine
  split
  · rfl
  · next scope _ =>
    split
    · rfl
    · rw [Block.moved, Stmt.anyUnconvertible?_moved]
      cases Stmt.anyUnconvertible? body.stmts with
      | some error => rfl
      | none =>
        unfold emitBody
        simp only [Stmt.emitAll_moved]
        rfl

/-- One emission after another: if each gives what was given before, with
moved errors, both do. -/
theorem Emitted.mapError_bind {β γ : Type} {x x' : Emitted β}
    {k k' : β → Emitted γ} (hx : x' = x.mapError (EmissionError.moved f))
    (hk : ∀ b, k' b = (k b).mapError (EmissionError.moved f)) :
    (x' >>= k') = (x >>= k).mapError (EmissionError.moved f) := by
  subst hx
  cases x with
  | ok b => exact hk b
  | error e => rfl

/-- The routines of moved definitions are those of the definitions. -/
theorem emitDefinitions_moved (constants : Constants) (table : SymbolTable)
    (ds : List (Definition Judged)) :
    emitDefinitions constants table (ds.map (Definition.moved f))
      = (emitDefinitions constants table ds).mapError
        (EmissionError.moved f) := by
  induction ds generalizing table with
  | nil => rfl
  | cons d ds ih =>
    exact Emitted.mapError_bind f
      (emitRoutine_moved f constants table d.name d.params d.ret d.body)
      fun (_, table) => Emitted.mapError_bind f (ih table) fun _ => rfl

/-- **The code of a moved tree** is that of the tree, and so is the symbol table
after it. -/
theorem TypedProgram.emit_moved (typed : TypedProgram) :
    (typed.moved f).emit = typed.emit.mapError (EmissionError.moved f) :=
  Emitted.mapError_bind f (emitDefinitions_moved f _ _ _) fun (_, table) =>
    Emitted.mapError_bind f
      (emitRoutine_moved f _ table Program.entryPoint [] .unit _) fun _ => rfl

namespace Program

variable {f}

/-- **A moved program is compiled to the same code**, or it is not compiled for
the same cause at the moved place. -/
theorem compile_moved (f : Span → Span) (p : Program Span) :
    (p.moved f).compile = p.compile.mapError (CompileError.moved f) := by
  unfold compile
  rw [p.check_moved f]
  cases p.check with
  | error e => rfl
  | ok typed =>
    show (typed.moved f).emit.mapError CompileError.emission
      = (typed.emit.mapError CompileError.emission).mapError
        (CompileError.moved f)
    rw [typed.emit_moved f]
    cases typed.emit <;> rfl

/-- **A compilation reports on places of the program only.** -/
theorem remark_mem_spans {p : Program Span} {e : CompileError}
    (h : p.compile = .error e) {r : Remark} (hr : r ∈ e.diagnostic.remarks) :
    r.span ∈ p.spans := by
  -- moved by a function that leaves just its own spans alone, the program is
  -- the same, so the error is, and its places were left alone
  have hself : p.moved (Span.unlessIn p.spans) = p :=
    moved_eq_self fun s hs => Span.unlessIn_eq_self.mpr hs
  have hcompile := p.compile_moved (Span.unlessIn p.spans)
  rw [hself, h] at hcompile
  have hmoved : e = e.moved (Span.unlessIn p.spans) :=
    Except.error.inj hcompile
  have hremarks := congrArg CompileError.diagnostic hmoved
  rw [CompileError.diagnostic_moved] at hremarks
  have hremarks := congrArg Diagnostic.remarks hremarks
  have hr' := List.map_inj_left.mp
    ((List.map_id _).trans hremarks) r hr
  exact Span.unlessIn_eq_self.mp (congrArg Remark.span hr').symm

/-- **Spans are opaque to checking and to emission.** Moving a program in any
way changes nothing about whether it passes the check. If it passes, the tree
that comes back is the one of before, moved, over the same symbol table, and the
code for it is the same; if it is refused, it is for the same cause at the moved
place. All places that a refusal points at are places of the program. -/
theorem spans_are_opaque (p : Program Span) :
    (∀ f, (∃ typed, (p.moved f).check = .ok typed)
      ↔ ∃ typed, p.check = .ok typed)
    ∧ (∀ f typed, p.check = .ok typed → (p.moved f).check
        = .ok ⟨typed.program.moved f, typed.symbols⟩
      ∧ (typed.moved f).emit = typed.emit.mapError (EmissionError.moved f))
    ∧ (∀ f error, p.check = .error error →
      (p.moved f).check = .error ⟨error.cause, f error.span⟩)
    ∧ (∀ error, p.check = .error error → error.span ∈ p.spans)
    ∧ ∀ error, p.compile = .error error →
      ∀ remark ∈ error.diagnostic.remarks, remark.span ∈ p.spans := by
  refine ⟨fun f => ?_, fun f typed h => ⟨?_, typed.emit_moved f⟩,
    fun f error h => ?_, fun error h => ?_, fun error h _ => remark_mem_spans h⟩
  · rw [p.check_moved f]
    cases p.check with
    | ok typed => exact iff_of_true ⟨_, rfl⟩ ⟨_, rfl⟩
    | error _ => exact iff_of_false nofun nofun
  · rw [p.check_moved f, h]
    rfl
  · rw [p.check_moved f, h]
    rfl
  · have hcompile : p.compile = .error (.typing error) := by
      rw [compile, h]
    exact remark_mem_spans hcompile (List.mem_singleton.mpr rfl)

/-- A script that returns from between its third and its ninth character. -/
def returning : Program Span :=
  ⟨[], ⟨[.retUnit ⟨3, 9⟩], ⟨3, 9⟩⟩⟩

/-- The doubling program passes the check wherever it stands; the script that
returns is refused wherever it stands, and its refusal points into it. -/
theorem spans_are_opaque_doubling :
    (∃ typed, doubling.check = .ok typed
      ∧ (doubling.moved fun _ => ⟨1, 4⟩).check
        = .ok ⟨typed.program.moved fun _ => ⟨1, 4⟩, typed.symbols⟩)
    ∧ returning.check = .error ⟨.unexpectedReturn, ⟨3, 9⟩⟩
    ∧ (returning.moved fun s => ⟨s.stop, s.start⟩).check
      = .error ⟨.unexpectedReturn, ⟨9, 3⟩⟩
    ∧ (⟨3, 9⟩ : Span) ∈ returning.spans
    ∧ ∃ error, returning.compile = .error error
      ∧ ∀ remark ∈ error.diagnostic.remarks,
        remark.span ∈ returning.spans := by
  obtain ⟨a, hcompile⟩ := exists_compile_doubling
  obtain ⟨typed, hcheck, -⟩ := compile_eq_ok.mp hcompile
  obtain ⟨-, hok, -, -, -⟩ := spans_are_opaque doubling
  obtain ⟨-, -, herror, hspan, hremark⟩ := spans_are_opaque returning
  have hrefused : returning.check = .error ⟨.unexpectedReturn, ⟨3, 9⟩⟩ := rfl
  exact ⟨⟨typed, hcheck, (hok _ typed hcheck).1⟩, hrefused,
    herror _ _ hrefused, hspan _ hrefused, _, rfl, hremark _ rfl⟩

end Program

end Primer
