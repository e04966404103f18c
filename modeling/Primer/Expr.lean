import Primer.Span
import Primer.Ty

/-!
# Expressions

The syntax of expressions, with a note on every node. The tree that a parser
delivers carries the node's span as its note; a checked tree carries the span
and the type that the checker found. Nothing else distinguishes the two, so
there is one type of trees and a note is a parameter of it. A function on
trees that has no use for the notes is written once.

Operators are sorted by what they take and give, since every treatment of
them goes by that sort: the arithmetic ones take two integers to an integer,
the comparisons take two integers to a truth value, and the connectives join
two truth values and look at the second one only if the first leaves the
matter open.
-/

namespace Primer

/-- The name of a variable, a parameter or a definition. -/
abbrev Ident := String

/-- A value written in a program. -/
inductive Literal where
  /-- An integer. -/
  | int (n : Int64)
  /-- A text. -/
  | str (s : String)
  /-- A truth value. -/
  | bool (b : Bool)
  /-- The none value. -/
  | unit
  deriving DecidableEq

/-- The type of a literal. -/
def Literal.ty : Literal → Ty
  | int _ => .int
  | str _ => .str
  | bool _ => .bool
  | unit => .unit

/-- Operators on integers. -/
inductive ArithOp where
  /-- The sum. -/
  | add
  /-- The difference. -/
  | sub
  /-- The product. -/
  | mul
  /-- The quotient, rounded down. -/
  | div
  /-- The remainder that goes with `div`. -/
  | mod
  deriving DecidableEq

/-- Tests of two values. -/
inductive Comparison where
  /-- The first comes before the second. -/
  | less
  /-- The second does not come before the first. -/
  | lessEq
  /-- Neither comes before the other. -/
  | equal
  deriving DecidableEq

/-- Ways to join two conditions. -/
inductive Connective where
  /-- Both hold; the second is looked at only if the first holds. -/
  | and
  /-- One holds; the second is looked at only if the first does not. -/
  | or
  deriving DecidableEq

/-- **An operator between two operands.** -/
inductive BinOp where
  /-- Arithmetic on integers. -/
  | arith (op : ArithOp)
  /-- A comparison. -/
  | compare (op : Comparison)
  /-- A connective. -/
  | logic (op : Connective)
  deriving DecidableEq

namespace BinOp

/-- How an operator is written. -/
def symbol : BinOp → String
  | arith .add => "+"
  | arith .sub => "-"
  | arith .mul => "*"
  | arith .div => "//"
  | arith .mod => "%"
  | compare .less => "<"
  | compare .lessEq => "<="
  | compare .equal => "=="
  | logic .and => "and"
  | logic .or => "or"

/-- Whether an operator compares its operands. -/
def isComparison : BinOp → Bool
  | compare _ => true
  | arith _ | logic _ => false

/-- The type that both operands have to have. -/
def operand : BinOp → Ty
  | arith _ => .int
  | compare _ => .int
  | logic _ => .bool

/-- The type of the result. -/
def result : BinOp → Ty
  | arith _ => .int
  | compare _ => .bool
  | logic _ => .bool

end BinOp

/-- What a value can be converted to. -/
inductive Conversion where
  /-- To an integer. -/
  | toInt
  /-- To a text. -/
  | toStr
  deriving DecidableEq

/-- The type of the result of a conversion. -/
def Conversion.result : Conversion → Ty
  | toInt => .int
  | toStr => .str

/-- **An expression**, with a note of type `α` on every node. -/
inductive Expr (α : Type) where
  /-- A value written out. -/
  | lit (note : α) (value : Literal)
  /-- A variable. -/
  | var (note : α) (name : Ident)
  /-- Two operands and the operator between them. -/
  | binary (note : α) (op : BinOp) (lhs rhs : Expr α)
  /-- The negation of a condition. -/
  | not (note : α) (operand : Expr α)
  /-- An integer taken from the input, after a prompt has been written. -/
  | input (note : α) (prompt : Expr α)
  /-- A value converted. -/
  | convert (note : α) (target : Conversion) (operand : Expr α)
  /-- The result of a call. -/
  | call (note : α) (callee : Ident) (args : List (Expr α))

namespace Expr

variable {α : Type}

/-- The note on the root of an expression. -/
def note : Expr α → α
  | lit note _ | var note _ | binary note _ _ _ | not note _
  | input note _ | convert note _ _ | call note _ _ => note

/-- Two operands and an operator, over the span that joins the operands'. -/
def joined (op : BinOp) (lhs rhs : Expr Span) : Expr Span :=
  binary (lhs.note.join rhs.note) op lhs rhs

end Expr

/-- **What the checker notes on an expression.** -/
structure Judged where
  /-- Where the expression stands. -/
  span : Span
  /-- The type of its value. -/
  ty : Ty
  deriving DecidableEq

namespace Expr

/-- The span of a checked expression. -/
def span (e : Expr Judged) : Span := e.note.span

/-- The type of a checked expression. -/
def ty (e : Expr Judged) : Ty := e.note.ty

end Expr

end Primer
