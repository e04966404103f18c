import Primer.Returns
import Primer.Typing.Expr

/-!
# The typing rules

What a program has to be like to be accepted, said by rules and without any
order of doing things: no scope is filled, no error is chosen, and a tree is
typed or it is not.

An expression has a type in a *context*, the variables in sight with their
types. A statement also changes the context, since it may introduce
variables, and it has a summary of how control leaves it. Contexts are passed
on in the order of the text and never taken back, so a variable that is
introduced inside a choice or a loop stays in sight after it.

The rules are for trees with any notes. What a note has to be for an
expression of a type is `Note.fits`: a span fits every type, and the judgement
of a checked tree fits the type that it names. So one set of rules says which
programs are accepted and which types are noted on them.
-/

namespace Primer

/-- What the note on an expression says about the type of the expression. -/
class Note (α : Type) where
  /-- Whether a note is right for an expression of a type. -/
  fits : α → Ty → Prop

/-- A span says nothing about the type. -/
instance : Note Span := ⟨fun _ _ => True⟩

/-- A judgement names the type. -/
instance : Note Judged := ⟨fun note ty => note.ty = ty⟩

/-- **A context**: the variables in sight and their types. -/
abbrev Context := List (Ident × Ty)

/-- The types that can be converted: all but the none type. -/
def Ty.IsConvertible (ty : Ty) : Prop := ty = .int ∨ ty = .str ∨ ty = .bool

variable {α : Type} [Note α]

namespace Expr

mutual

/-- **An expression has a type** in a context. -/
inductive HasType (sigs : Signatures) (Γ : Context) : Expr α → Ty → Prop
  /-- A literal has its own type. -/
  | lit {note : α} {value : Literal} (hnote : Note.fits note value.ty) :
    HasType sigs Γ (.lit note value) value.ty
  /-- A variable has the type it has in the context. -/
  | var {note : α} {name : Ident} {ty : Ty} (hnote : Note.fits note ty)
      (hname : (name, ty) ∈ Γ) : HasType sigs Γ (.var note name) ty
  /-- Arithmetic takes two integers to an integer. -/
  | arith {note : α} {op : ArithOp} {lhs rhs : Expr α}
      (hnote : Note.fits note .int) (hlhs : HasType sigs Γ lhs .int)
      (hrhs : HasType sigs Γ rhs .int) :
    HasType sigs Γ (.binary note (.arith op) lhs rhs) .int
  /-- A comparison takes two integers to a truth value. -/
  | compare {note : α} {op : Comparison} {lhs rhs : Expr α}
      (hnote : Note.fits note .bool) (hlhs : HasType sigs Γ lhs .int)
      (hrhs : HasType sigs Γ rhs .int) :
    HasType sigs Γ (.binary note (.compare op) lhs rhs) .bool
  /-- A connective joins two truth values. -/
  | logic {note : α} {op : Connective} {lhs rhs : Expr α}
      (hnote : Note.fits note .bool) (hlhs : HasType sigs Γ lhs .bool)
      (hrhs : HasType sigs Γ rhs .bool) :
    HasType sigs Γ (.binary note (.logic op) lhs rhs) .bool
  /-- A negation is that of a truth value. -/
  | not {note : α} {operand : Expr α} (hnote : Note.fits note .bool)
      (hoperand : HasType sigs Γ operand .bool) :
    HasType sigs Γ (.not note operand) .bool
  /-- An input is an integer, and its prompt a text. -/
  | input {note : α} {prompt : Expr α} (hnote : Note.fits note .int)
      (hprompt : HasType sigs Γ prompt .str) :
    HasType sigs Γ (.input note prompt) .int
  /-- A conversion has the type of its target. -/
  | convert {note : α} {target : Conversion} {operand : Expr α} {ty : Ty}
      (hnote : Note.fits note target.result) (hty : ty.IsConvertible)
      (hoperand : HasType sigs Γ operand ty) :
    HasType sigs Γ (.convert note target operand) target.result
  /-- A call passes one argument for each parameter, of its type. -/
  | call {note : α} {callee : Ident} {args : List (Expr α)} {sig : Signature}
      (hnote : Note.fits note sig.ret) (hsig : sigs callee = some sig)
      (hargs : HaveTypes sigs Γ args sig.params) :
    HasType sigs Γ (.call note callee args) sig.ret

/-- **Expressions have types**, one each. -/
inductive HaveTypes (sigs : Signatures) (Γ : Context) :
    List (Expr α) → List Ty → Prop
  /-- No expression has no type. -/
  | nil : HaveTypes sigs Γ [] []
  /-- One expression, then the others. -/
  | cons {e : Expr α} {ty : Ty} {es : List (Expr α)} {tys : List Ty}
      (he : HasType sigs Γ e ty) (hes : HaveTypes sigs Γ es tys) :
    HaveTypes sigs Γ (e :: es) (ty :: tys)

end

/-- The type that is noted on an expression is its type. -/
theorem HasType.ty_eq {sigs : Signatures} {Γ : Context} {e : Expr Judged}
    {ty : Ty} (h : e.HasType sigs Γ ty) : e.ty = ty := by
  cases h with
  | lit hnote => exact hnote
  | var hnote => exact hnote
  | arith hnote => exact hnote
  | compare hnote => exact hnote
  | logic hnote => exact hnote
  | not hnote => exact hnote
  | input hnote => exact hnote
  | convert hnote => exact hnote
  | call hnote => exact hnote

end Expr

namespace Returns

/-- **One piece after another**: how control leaves the two together. There
is no rule for a first piece that always returns, after which nothing may
come. -/
inductive Then : Returns → Returns → Returns → Prop
  /-- A piece that never returns goes on to the second. -/
  | never {second : Returns} : Then .never second second
  /-- The second piece never returns, so some paths go on. -/
  | goesOn {ty : Ty} : Then (.maybe ty) .never (.maybe ty)
  /-- The second piece always returns, so no path goes on. -/
  | ends {ty : Ty} : Then (.maybe ty) (.always ty) (.always ty)
  /-- Both return on some paths. -/
  | mayEnd {ty : Ty} : Then (.maybe ty) (.maybe ty) (.maybe ty)

/-- **Two pieces side by side**: how control leaves the one that is executed.
-/
inductive Either : Returns → Returns → Returns → Prop
  /-- Neither returns. -/
  | neither : Either .never .never .never
  /-- Both always return. -/
  | both {ty : Ty} : Either (.always ty) (.always ty) (.always ty)
  /-- Only the first one returns. -/
  | first {one : Returns} {ty : Ty} (h : one.ty? = some ty) :
    Either one .never (.maybe ty)
  /-- Only the second one returns. -/
  | second {other : Returns} {ty : Ty} (h : other.ty? = some ty) :
    Either .never other (.maybe ty)
  /-- Both return, the first one on some paths only. -/
  | mayFirst {other : Returns} {ty : Ty} (h : other.ty? = some ty) :
    Either (.maybe ty) other (.maybe ty)
  /-- Both return, the second one on some paths only. -/
  | maySecond {one : Returns} {ty : Ty} (h : one.ty? = some ty) :
    Either one (.maybe ty) (.maybe ty)

/-- **A piece that may be skipped**: how control leaves it or goes past it. -/
inductive Skippable : Returns → Returns → Prop
  /-- It does not return anyway. -/
  | never : Skippable .never .never
  /-- It returns unless it is skipped. -/
  | returns {returns : Returns} {ty : Ty} (h : returns.ty? = some ty) :
    Skippable returns (.maybe ty)

end Returns

namespace Stmt

/-- A name that the context does not have. -/
def IsNew (name : Ident) (Γ : Context) : Prop := ∀ ty, (name, ty) ∉ Γ

mutual

/-- **A statement takes a context to a context**, and control leaves it as
the summary says. `expected` is the type that returns have to have, if there
may be any. -/
inductive HasEffect (sigs : Signatures) (expected : Option Ty) :
    Context → Stmt α → Context → Returns → Prop
  /-- A new variable, of which the first value does not know. -/
  | introduce {Γ : Context} {span : Span} {name : Ident} {ty : Ty}
      {init : Expr α} (hinit : init.HasType sigs Γ ty)
      (hnew : IsNew name Γ) :
    HasEffect sigs expected Γ (.introduce span name ty init)
      ((name, ty) :: Γ) .never
  /-- A value of the type of the variable. -/
  | assign {Γ : Context} {span : Span} {name : Ident} {ty : Ty}
      {value : Expr α} (hname : (name, ty) ∈ Γ)
      (hvalue : value.HasType sigs Γ ty) :
    HasEffect sigs expected Γ (.assign span name value) Γ .never
  /-- An integer variable and an integer. -/
  | update {Γ : Context} {span : Span} {op : Update} {name : Ident}
      {operand : Expr α} (hname : (name, .int) ∈ Γ)
      (hoperand : operand.HasType sigs Γ .int) :
    HasEffect sigs expected Γ (.update span op name operand) Γ .never
  /-- Nothing. -/
  | pass {Γ : Context} {span : Span} :
    HasEffect sigs expected Γ (.pass span) Γ .never
  /-- Values of any types. -/
  | print {Γ : Context} {span : Span} {args : List (Expr α)} {tys : List Ty}
      (hargs : Expr.HaveTypes sigs Γ args tys) :
    HasEffect sigs expected Γ (.print span args) Γ .never
  /-- A value of the type that is expected. -/
  | ret {Γ : Context} {span : Span} {value : Expr α} {ty : Ty}
      (hexpected : expected = some ty) (hvalue : value.HasType sigs Γ ty) :
    HasEffect sigs expected Γ (.ret span value) Γ (.always ty)
  /-- No value, where the none type is expected. -/
  | retUnit {Γ : Context} {span : Span} (hexpected : expected = some .unit) :
    HasEffect sigs expected Γ (.retUnit span) Γ (.always .unit)
  /-- A procedure and its arguments. -/
  | call {Γ : Context} {span : Span} {callee : Ident} {args : List (Expr α)}
      {sig : Signature} (hsig : sigs callee = some sig)
      (hargs : Expr.HaveTypes sigs Γ args sig.params)
      (hret : sig.ret = .unit) :
    HasEffect sigs expected Γ (.call span callee args) Γ .never
  /-- A condition and two blocks, the second of which sees what the first one
  introduces. -/
  | ifElse {Γ Γ₁ Γ₂ : Context} {span : Span} {cond : Expr α}
      {thenBlock elseBlock : Block (Stmt α)} {one other returns : Returns}
      (hcond : cond.HasType sigs Γ .bool)
      (hthen : HaveEffect sigs expected Γ .never thenBlock.stmts Γ₁ one)
      (helse : HaveEffect sigs expected Γ₁ .never elseBlock.stmts Γ₂ other)
      (hreturns : one.Either other returns) :
    HasEffect sigs expected Γ (.ifElse span cond thenBlock elseBlock) Γ₂
      returns
  /-- A condition and a block, which may be skipped. -/
  | whileLoop {Γ Γ₁ : Context} {span : Span} {cond : Expr α}
      {body : Block (Stmt α)} {once returns : Returns}
      (hcond : cond.HasType sigs Γ .bool)
      (hbody : HaveEffect sigs expected Γ .never body.stmts Γ₁ once)
      (hreturns : once.Skippable returns) :
    HasEffect sigs expected Γ (.whileLoop span cond body) Γ₁ returns

/-- **Statements take a context to a context**, one after the other, and
control leaves them and the piece `before` them as the summary says. -/
inductive HaveEffect (sigs : Signatures) (expected : Option Ty) :
    Context → Returns → List (Stmt α) → Context → Returns → Prop
  /-- No statement. -/
  | nil {Γ : Context} {before : Returns} :
    HaveEffect sigs expected Γ before [] Γ before
  /-- One statement, then the others. -/
  | cons {Γ Γ₁ Γ₂ : Context} {stmt : Stmt α} {stmts : List (Stmt α)}
      {before first mid returns : Returns}
      (hstmt : HasEffect sigs expected Γ stmt Γ₁ first)
      (hthen : before.Then first mid)
      (hstmts : HaveEffect sigs expected Γ₁ mid stmts Γ₂ returns) :
    HaveEffect sigs expected Γ before (stmt :: stmts) Γ₂ returns

end

end Stmt

/-- **A definition is well typed**: its parameters have different names, and
its body, which starts with them in sight, always returns a value of the
declared type. -/
structure Definition.WellTyped (sigs : Signatures) (d : Definition α) :
    Prop where
  /-- The parameters have different names. -/
  params : (d.params.map Prod.fst).Nodup
  /-- The body always returns a value of the declared type. -/
  body : ∃ Γ, Stmt.HaveEffect sigs (some d.ret) d.params .never d.body.stmts
    Γ (.always d.ret)

/-- **A program is well typed.** -/
structure Program.WellTyped (p : Program α) : Prop where
  /-- The definitions have different names. -/
  distinct : (p.definitions.map Definition.name).Nodup
  /-- None of them is that of the main script. -/
  entryPoint : ∀ d ∈ p.definitions, d.name ≠ Program.entryPoint
  /-- Each definition is well typed. -/
  definitions : ∀ d ∈ p.definitions, d.WellTyped p.signature?
  /-- The main script starts with nothing in sight and never returns. -/
  main : ∃ Γ, Stmt.HaveEffect p.signature? none [] .never p.main.stmts Γ
    .never

end Primer
