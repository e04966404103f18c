import Primer.Diagnostic
import Primer.Stmt

/-!
# Emission errors

Why no code can be emitted for a tree. None of it is the fault of a program:
a tree that the checker made, over the table that it made, has scopes for all
its bodies, no two bodies of one name and no conversion of the none value.
But a tree and a table can also be put together by hand.

Whether a tree converts the none value can be seen without emitting code, so
that is a separate question, `unconvertible?`. It finds the conversion that
emission would come to first: a node before its parts, and parts from left to
right. Emission that finds it when it comes to it is in `Indexed/Emission`.
-/

namespace Primer

/-- **Why no code can be emitted.** -/
inductive EmissionError where
  /-- The table has no scope for a body. -/
  | missingScope (owner : Ident)
  /-- The table has the name of a body for something else. -/
  | duplicateEntry (name : Ident)
  /-- A conversion of the none value. -/
  | unconvertible (target : Conversion) (span : Span)
  deriving DecidableEq

/-- How a conversion is written. -/
def Conversion.name : Conversion → String
  | toInt => "int()"
  | toStr => "str()"

/-- What a reader is told about an emission error. -/
def EmissionError.diagnostic : EmissionError → Diagnostic
  | missingScope owner =>
    { message := "No scope was recorded for '" ++ owner ++ "'"
      help :=
        some "the program has to be type checked before it is lowered"
      remarks := [] }
  | duplicateEntry name =>
    { message := "The entry label '" ++ name ++ "' is already taken"
      help := none
      remarks := [] }
  | unconvertible target span =>
    { message := "Cannot lower " ++ target.name ++ " on a value of type "
        ++ Ty.unit.name
      help := none
      remarks := [⟨"this expression", span⟩] }

namespace Expr

mutual

/-- **The first conversion of the none value** in an expression. -/
def unconvertible? : Expr Judged → Option EmissionError
  | lit _ _ => none
  | var _ _ => none
  | binary _ _ lhs rhs => lhs.unconvertible? <|> rhs.unconvertible?
  | not _ operand => operand.unconvertible?
  | input _ prompt => prompt.unconvertible?
  | convert note target operand =>
    if operand.ty = .unit then some (.unconvertible target note.span)
    else operand.unconvertible?
  | call _ _ args => anyUnconvertible? args

/-- The first conversion of the none value in a list of expressions. -/
def anyUnconvertible? : List (Expr Judged) → Option EmissionError
  | [] => none
  | e :: rest => e.unconvertible? <|> anyUnconvertible? rest

end

end Expr

namespace Stmt

mutual

/-- **The first conversion of the none value** in a statement. -/
def unconvertible? : Stmt Judged → Option EmissionError
  | introduce _ _ _ value | assign _ _ value | update _ _ _ value
  | ret _ value => value.unconvertible?
  | pass _ | retUnit _ => none
  | print _ args | call _ _ args => Expr.anyUnconvertible? args
  | ifElse _ cond thenBlock elseBlock =>
    cond.unconvertible? <|> anyUnconvertible? thenBlock.stmts
      <|> anyUnconvertible? elseBlock.stmts
  | whileLoop _ cond body =>
    cond.unconvertible? <|> anyUnconvertible? body.stmts

/-- The first conversion of the none value in a list of statements. -/
def anyUnconvertible? : List (Stmt Judged) → Option EmissionError
  | [] => none
  | stmt :: rest => stmt.unconvertible? <|> anyUnconvertible? rest

end

end Stmt

end Primer
