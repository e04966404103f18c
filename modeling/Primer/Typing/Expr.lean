import Primer.Scope
import Primer.TypeError

/-!
# Checking expressions

An expression is checked against the signatures of the definitions and the
scope of the body it stands in. What comes back is the same expression with
the type of every part noted on it. Parts are checked from left to right and
before the whole, and the first error ends the check, so a program with
several errors is always refused for the same one.

A name is looked up in the scope of its own body and nowhere else: variables
are never shared between bodies.
-/

namespace Primer

/-- What the checker knows of the definitions: the signature that goes with a
name. -/
abbrev Signatures := Ident → Option Signature

/-- The signature for a call with this many arguments. -/
def Signatures.forCall (sigs : Signatures) (callee : Ident) (found : Nat)
    (span : Span) : Check Signature :=
  match sigs callee with
  | none => refuse (.unknownFunction callee) span
  | some sig =>
    if found = sig.params.length then .ok sig
    else refuse (.arityMismatch callee sig.params.length found) span

/-- The type of a variable in a scope. -/
def Scope.typeOf (scope : Scope) (name : Ident) (span : Span) : Check Ty :=
  match (scope.find? name).bind Symbol.ty? with
  | some ty => .ok ty
  | none => refuse (.undeclaredVariable name) span

/-- What an operator asks of the types of its operands. A comparison first
asks that they be the same, and then, like arithmetic, that they be integers.
-/
def BinOp.admit (op : BinOp) (lhs rhs : Ty) (span : Span) : Check Unit :=
  if op.isComparison ∧ lhs ≠ rhs then
    refuse (.incomparableOperands lhs rhs) span
  else
    require (lhs = op.operand ∧ rhs = op.operand)
      (.binaryOperands op op.operand lhs rhs) span

namespace Expr

/-- Asks for the type that a variable needs. -/
def expectValue (e : Expr Judged) (expected : Ty) : Check Unit :=
  require (e.ty = expected) (.typeMismatch expected e.ty) e.span

/-- Asks for the type that an operator needs. -/
def expectOperand (e : Expr Judged) (operator : Operator) (expected : Ty) :
    Check Unit :=
  require (e.ty = expected) (.unaryOperand operator expected e.ty) e.span

/-- Asks for a type that can be converted: any but the none type. -/
def expectConvertible (e : Expr Judged) (target : Conversion) : Check Unit :=
  require (e.ty ≠ .unit) (.conversion target.result e.ty) e.span

/-- Asks for the type of a parameter. -/
def expectArgument (e : Expr Judged) (callee : Ident) (index : Nat)
    (expected : Ty) : Check Unit :=
  require (e.ty = expected)
    (.argumentType callee index expected e.ty) e.span

mutual

/-- **Checks an expression** and notes the types of its parts. -/
def check (sigs : Signatures) (scope : Scope) :
    Expr Span → Check (Expr Judged)
  | lit span value => return lit ⟨span, value.ty⟩ value
  | var span name => do
    let ty ← scope.typeOf name span
    return var ⟨span, ty⟩ name
  | binary span op lhs rhs => do
    let lhs ← check sigs scope lhs
    let rhs ← check sigs scope rhs
    op.admit lhs.ty rhs.ty span
    return binary ⟨span, op.result⟩ op lhs rhs
  | not span operand => do
    let operand ← check sigs scope operand
    operand.expectOperand .not .bool
    return not ⟨span, .bool⟩ operand
  | input span prompt => do
    let prompt ← check sigs scope prompt
    prompt.expectOperand .input .str
    return input ⟨span, .int⟩ prompt
  | convert span target operand => do
    let operand ← check sigs scope operand
    operand.expectConvertible target
    return convert ⟨span, target.result⟩ target operand
  | call span callee args => do
    let sig ← sigs.forCall callee args.length span
    let args ← checkArgs sigs scope callee 0 sig.params args
    return call ⟨span, sig.ret⟩ callee args

/-- Checks the arguments of a call against the parameters, from the parameter
with this index on. -/
def checkArgs (sigs : Signatures) (scope : Scope) (callee : Ident)
    (index : Nat) : List Ty → List (Expr Span) → Check (List (Expr Judged))
  | param :: params, arg :: args => do
    let arg ← check sigs scope arg
    arg.expectArgument callee index param
    let args ← checkArgs sigs scope callee (index + 1) params args
    return arg :: args
  | _, _ => return []

end

/-- Checks expressions of which no type is asked, one after the other. -/
def checkAll (sigs : Signatures) (scope : Scope) :
    List (Expr Span) → Check (List (Expr Judged))
  | [] => return []
  | e :: rest => do
    let e ← e.check sigs scope
    let rest ← checkAll sigs scope rest
    return e :: rest

end Expr

end Primer
