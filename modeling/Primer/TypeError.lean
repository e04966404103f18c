import Primer.Diagnostic
import Primer.Stmt

/-!
# Type errors

Why the checker refuses a program, and where. The *cause* says all that the
message says, in values rather than words; the span says where the reader
should look. The two are kept apart because they come from different sides:
the cause from a rule of the type system, the span from the node that the
rule was applied to.
-/

namespace Primer

open Text

/-- What takes one operand and asks for a type. -/
inductive Operator where
  /-- A negation. -/
  | not
  /-- The prompt of an input. -/
  | input
  /-- The variable of an update. -/
  | update (op : Update)
  deriving DecidableEq

/-- How an operator is called. -/
def Operator.name : Operator → String
  | not => "not"
  | input => "input"
  | update op => op.symbol

/-- What has a condition. -/
inductive Construct where
  /-- A choice between two blocks. -/
  | ifElse
  /-- A repetition. -/
  | whileLoop
  deriving DecidableEq

/-- How a construct is called. -/
def Construct.name : Construct → String
  | ifElse => "if"
  | whileLoop => "while"

/-- **Why a program is refused.** -/
inductive Cause where
  /-- No variable of this name has been introduced. -/
  | undeclaredVariable (name : Ident)
  /-- No definition has this name. -/
  | unknownFunction (name : Ident)
  /-- The name is taken. -/
  | redeclared (name : Ident)
  /-- A call has too many or too few arguments. -/
  | arityMismatch (callee : Ident) (expected found : Nat)
  /-- An argument has the wrong type. -/
  | argumentType (callee : Ident) (index : Nat) (expected found : Ty)
  /-- A value has the wrong type for its variable. -/
  | typeMismatch (expected found : Ty)
  /-- The operands of an operator have the wrong types. -/
  | binaryOperands (op : BinOp) (expected lhs rhs : Ty)
  /-- The operands of a comparison differ in type. -/
  | incomparableOperands (lhs rhs : Ty)
  /-- The operand of an operator has the wrong type. -/
  | unaryOperand (operator : Operator) (expected found : Ty)
  /-- The none value is converted. -/
  | conversion (target found : Ty)
  /-- A condition is not a truth value. -/
  | nonBooleanCondition (construct : Construct) (found : Ty)
  /-- A statement comes after a certain return. -/
  | unreachable
  /-- No path through a body returns. -/
  | neverReturns (name : Ident)
  /-- Some path through a body does not return. -/
  | mightNotReturn (name : Ident)
  /-- The main script returns. -/
  | unexpectedReturn
  /-- A returned value has the wrong type. -/
  | returnTypeMismatch (expected found : Ty)
  /-- Two returns have different types. -/
  | inconsistentReturns (expected found : Ty)
  /-- A call of a function stands as a statement. -/
  | notAProcedure (name : Ident) (ret : Ty)
  deriving DecidableEq

namespace Cause

/-- The cause in one sentence. -/
def message : Cause → String
  | undeclaredVariable name => "Variable '" ++ name ++ "' never introduced"
  | unknownFunction name => "Unknown function '" ++ name ++ "'"
  | redeclared name => "'" ++ name ++ "' is already declared"
  | arityMismatch callee expected found =>
    "Incorrect number of arguments for '" ++ callee ++ "': expected "
      ++ Decimal.ofNat expected ++ ", found " ++ Decimal.ofNat found
  | argumentType callee index expected found =>
    "Argument " ++ Decimal.ofNat index ++ " of '" ++ callee ++ "' has type "
      ++ found.name ++ ", expected " ++ expected.name
  | typeMismatch expected found =>
    "Type mismatch. Expected " ++ expected.name ++ " but found " ++ found.name
  | binaryOperands op expected lhs rhs =>
    "Wrong operand types for " ++ op.symbol ++ ": " ++ lhs.name ++ " and "
      ++ rhs.name ++ ", expected " ++ expected.name
  | incomparableOperands lhs rhs =>
    "Must compare values of the same type, found " ++ lhs.name ++ " and "
      ++ rhs.name
  | unaryOperand operator expected found =>
    "Wrong operand type for " ++ operator.name ++ ": expected "
      ++ expected.name ++ ", found " ++ found.name
  | conversion target found =>
    "Cannot convert a value of type " ++ found.name ++ " to " ++ target.name
  | nonBooleanCondition construct found =>
    "The " ++ construct.name ++ " condition has type " ++ found.name
      ++ ", expected bool"
  | unreachable => "Statement not reachable because of prior return"
  | neverReturns name => "Body of '" ++ name ++ "' never returns"
  | mightNotReturn name => "Body of '" ++ name ++ "' might not return"
  | unexpectedReturn => "Unexpected return statement"
  | returnTypeMismatch expected found =>
    "Return type mismatch. Expected return of type " ++ expected.name
      ++ ", found " ++ found.name
  | inconsistentReturns expected found =>
    "Incompatible return types " ++ expected.name ++ " and " ++ found.name
  | notAProcedure name ret =>
    "'" ++ name ++ "' returns a value of type " ++ ret.name
      ++ " and cannot be called as a procedure"

/-- What can be done, where there is something to say. -/
def help : Cause → Option String
  | conversion _ _ => some "only int, str and bool values can be converted"
  | mightNotReturn _ =>
    some "every path through the body has to end in a return"
  | unexpectedReturn => some "the main script does not return"
  | _ => none

/-- What is said about the place. -/
def remark : Cause → String
  | undeclaredVariable _ => "not declared"
  | unknownFunction _ => "no definition with this name"
  | redeclared _ => "redeclared here"
  | arityMismatch _ _ _ => "this call"
  | argumentType _ _ _ _ => "this argument"
  | typeMismatch _ _ => "this expression"
  | binaryOperands _ _ _ _ => "this operation"
  | incomparableOperands _ _ => "this comparison"
  | unaryOperand _ _ _ => "this operand"
  | conversion _ _ => "this operand"
  | nonBooleanCondition _ _ => "this condition"
  | unreachable => "never executed"
  | neverReturns _ => "this body"
  | mightNotReturn _ => "this body"
  | unexpectedReturn => "here"
  | returnTypeMismatch _ _ => "this return"
  | inconsistentReturns _ _ => "here"
  | notAProcedure _ _ => "this call"

end Cause

/-- **A type error**: a cause at a place. -/
structure TypeError where
  /-- Why the program is refused. -/
  cause : Cause
  /-- Where the reader should look. -/
  span : Span
  deriving DecidableEq

/-- What a reader is told about a type error. -/
def TypeError.diagnostic (e : TypeError) : Diagnostic where
  message := e.cause.message
  help := e.cause.help
  remarks := [⟨e.cause.remark, e.span⟩]

/-- **The result of a check**, or why there is none. -/
abbrev Check := Except TypeError

/-- Refuses for a cause at a place. -/
def refuse {α : Type} (cause : Cause) (span : Span) : Check α :=
  .error ⟨cause, span⟩

/-- Refuses unless a condition holds. -/
def require (holds : Bool) (cause : Cause) (span : Span) : Check Unit :=
  if holds then .ok () else refuse cause span

end Primer
