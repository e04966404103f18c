import Primer.Expr

/-!
# Statements, definitions and programs

The syntax above expressions. A statement stands at a span, a block is a run
of statements at a span, and a program is a list of definitions and a main
script. Only expressions carry notes: checking adds a type to each of them
and changes nothing else.

A definition that returns the none value is a *procedure*, and a call of one
may stand as a statement. There is no separate kind of definition for it: the
return type says everything.
-/

namespace Primer

/-- **A block**: statements that are executed one after the other. -/
structure Block (σ : Type) where
  /-- The statements, first to last. -/
  stmts : List σ
  /-- Where the block stands. -/
  span : Span

/-- How an update changes a variable. -/
inductive Update where
  /-- It adds the operand. -/
  | add
  /-- It takes the operand away. -/
  | sub
  deriving DecidableEq

namespace Update

/-- How an update is written. -/
def symbol : Update → String
  | add => "+="
  | sub => "-="

/-- The operator that an update applies. -/
def op : Update → ArithOp
  | add => .add
  | sub => .sub

end Update

/-- **A statement**, with a note of type `α` on every expression in it. -/
inductive Stmt (α : Type) where
  /-- A new variable with its type and its first value. -/
  | introduce (span : Span) (name : Ident) (ty : Ty) (init : Expr α)
  /-- A new value for a variable. -/
  | assign (span : Span) (name : Ident) (value : Expr α)
  /-- A variable changed by an operand. -/
  | update (span : Span) (op : Update) (name : Ident) (operand : Expr α)
  /-- Nothing. -/
  | pass (span : Span)
  /-- The values of the arguments on one line. -/
  | print (span : Span) (args : List (Expr α))
  /-- The end of the call, with its result. -/
  | ret (span : Span) (value : Expr α)
  /-- The end of a call of a procedure. -/
  | retUnit (span : Span)
  /-- The call of a procedure. -/
  | call (span : Span) (callee : Ident) (args : List (Expr α))
  /-- One of two blocks. -/
  | ifElse (span : Span) (cond : Expr α)
      (thenBlock elseBlock : Block (Stmt α))
  /-- A block, again and again. -/
  | whileLoop (span : Span) (cond : Expr α) (body : Block (Stmt α))

namespace Stmt

variable {α : Type}

/-- Where a statement stands. -/
def span : Stmt α → Span
  | introduce span _ _ _ | assign span _ _ | update span _ _ _ | pass span
  | print span _ | ret span _ | retUnit span | call span _ _
  | ifElse span _ _ _ | whileLoop span _ _ => span

end Stmt

/-- A block over the span from its first statement to its last. -/
def Block.spanning {α : Type} (stmts : List (Stmt α)) : Block (Stmt α) :=
  match stmts.head?, stmts.getLast? with
  | some first, some last => ⟨stmts, first.span.join last.span⟩
  | _, _ => ⟨stmts, .origin⟩

/-- What a caller has to know of a definition. -/
structure Signature where
  /-- The types of the parameters, in order. -/
  params : List Ty
  /-- The type of the result. -/
  ret : Ty
  deriving DecidableEq

/-- **A definition** of a function or procedure. -/
structure Definition (α : Type) where
  /-- The name it is called by. -/
  name : Ident
  /-- The parameters and their types, in order. -/
  params : List (Ident × Ty)
  /-- The type of the result. -/
  ret : Ty
  /-- What a call executes. -/
  body : Block (Stmt α)
  /-- Where the name stands. -/
  nameSpan : Span

namespace Definition

variable {α : Type}

/-- What a caller has to know. -/
def signature (d : Definition α) : Signature := ⟨d.params.map Prod.snd, d.ret⟩

/-- How many arguments a call has to pass. -/
def arity (d : Definition α) : Nat := d.params.length

/-- Whether a call may stand as a statement. -/
def isProcedure (d : Definition α) : Bool := d.ret == .unit

end Definition

/-- **A program.** -/
structure Program (α : Type) where
  /-- The definitions, in the order of the text. -/
  definitions : List (Definition α)
  /-- The main script. -/
  main : Block (Stmt α)

namespace Program

variable {α : Type}

/-- The name that belongs to the main script; no definition may have it. -/
def entryPoint : Ident := "main"

/-- The signature of the first definition of this name. -/
def signature? (p : Program α) (name : Ident) : Option Signature :=
  (p.definitions.find? (·.name == name)).map Definition.signature

end Program

end Primer
