import Primer.Machine.Error
import Primer.Stmt

/-!
# What programs mean

An evaluator of the syntax tree, which says what a program means without any
code. It knows expressions and statements and nothing of frames, labels or
temporaries: an expression has a value in an environment, a statement takes
an environment to an environment or returns a value, and a call evaluates the
body of a definition in an environment that has the parameters only. Truth
values and the none value are values of their own, and arithmetic is that of
the integers, reduced to 64 bits.

Evaluation need not end, so it is given *fuel*: how often a loop may go round
and how deeply calls may be nested. What ends with some fuel is what ends.
An evaluation that makes no sense, such as the sum of two texts, is *stuck*;
checked programs never are.
-/

namespace Primer

open Text

/-- **What a program reads and writes.** -/
structure World where
  /-- The integers not read yet. -/
  input : List Int64
  /-- The text written so far. -/
  output : String
  deriving DecidableEq

/-- **Why an evaluation has no value.** -/
inductive Stop where
  /-- The program fails. -/
  | failed (error : RuntimeError)
  /-- There is no sense in what it does. -/
  | stuck
  /-- It needs more fuel. -/
  | outOfFuel
  deriving DecidableEq

/-- **An evaluation**: it changes the world, and has a value or stops. -/
abbrev Eval := EStateM Stop World

namespace Eval

/-- Stops because the program fails. -/
def fail {β : Type} (error : RuntimeError) : Eval β := throw (.failed error)

/-- Writes a text. -/
def write (text : String) : Eval Unit :=
  modify fun w => { w with output := w.output ++ text }

/-- Reads the next integer. -/
def read : Eval Int64 := do
  match (← get).input with
  | [] => fail .inputExhausted
  | n :: rest =>
    modify fun w => { w with input := rest }
    return n

end Eval

/-! ## Values -/

namespace Literal

/-- A value as an integer. -/
def asInt : Literal → Eval Int64
  | int n => return n
  | str _ | bool _ | unit => throw .stuck

/-- A value as a text. -/
def asStr : Literal → Eval String
  | str s => return s
  | int _ | bool _ | unit => throw .stuck

/-- A value as a truth value. -/
def asBool : Literal → Eval Bool
  | bool b => return b
  | int _ | str _ | unit => throw .stuck

/-- **A value as it is printed.** -/
def printed : Literal → String
  | int n => Decimal.ofInt64 n
  | str s => s
  | bool true => "True"
  | bool false => "False"
  | unit => "None"

end Literal

namespace ArithOp

/-- The result of an operation on integers of any size. Division rounds down.
-/
def exact (op : ArithOp) (a b : Int) : Int :=
  match op with
  | add => a + b
  | sub => a - b
  | mul => a * b
  | div => a.fdiv b
  | mod => a.fmod b

/-- Whether an operation divides. -/
def divides : ArithOp → Bool
  | div | mod => true
  | add | sub | mul => false

/-- **The result of an operation**, reduced to 64 bits. -/
def apply (op : ArithOp) (body : Ident) (lhs rhs : Literal) :
    Eval Literal := do
  let a ← lhs.asInt
  let b ← rhs.asInt
  if op.divides ∧ b = 0 then Eval.fail (.divisionByZero body)
  else return .int (Int64.ofInt (op.exact a.toInt b.toInt))

end ArithOp

namespace Comparison

/-- Whether a comparison of integers holds. -/
def exact (op : Comparison) (a b : Int) : Bool :=
  match op with
  | less => a < b
  | lessEq => a ≤ b
  | equal => a = b

/-- **The result of a comparison.** -/
def apply (op : Comparison) (lhs rhs : Literal) : Eval Literal := do
  let a ← lhs.asInt
  let b ← rhs.asInt
  return .bool (op.exact a.toInt b.toInt)

end Comparison

/-- Whether the first operand leaves nothing to the second. -/
def Connective.decides : Connective → Bool → Bool
  | and, first => !first
  | or, first => first

/-- The integer that a text is the numeral of. -/
def Eval.numeral (text : String) : Eval Literal :=
  match toInteger? text with
  | some n => return .int n
  | none => fail (.conversion text)

/-- **The value of a conversion.** -/
def Conversion.apply : Conversion → Literal → Eval Literal
  | _, .unit => throw .stuck
  | toInt, .int n => return .int n
  | toInt, .bool b => return .int (if b then 1 else 0)
  | toInt, .str s => Eval.numeral s
  | toStr, value => return .str value.printed

/-! ## Environments -/

/-- **An environment**: the values of the variables that have one. -/
abbrev Env := Ident → Option Literal

namespace Env

/-- No variable has a value. -/
def empty : Env := fun _ => none

/-- The environment with the value of a variable changed. -/
def set (env : Env) (name : Ident) (value : Literal) : Env :=
  fun other => if other = name then some value else env other

/-- The environment that has the parameters only. -/
def enter (params : List Ident) (args : List Literal) : Env :=
  (params.zip args).foldl (fun env b => env.set b.1 b.2) empty

/-- The value of a variable. -/
def read (env : Env) (body : Ident) (name : Ident) : Eval Literal :=
  match env name with
  | some value => return value
  | none => Eval.fail (.unset name body)

end Env

/-- What calls do, given the name of a definition and the arguments. -/
abbrev Calls := Ident → List Literal → Eval Literal

/-! ## Expressions -/

namespace Expr

variable {α : Type}

mutual

/-- **The value of an expression** in the body of this name. -/
def eval (calls : Calls) (body : Ident) (env : Env) : Expr α → Eval Literal
  | lit _ value => return value
  | var _ name => env.read body name
  | binary _ (.arith op) lhs rhs => do
    let a ← eval calls body env lhs
    let b ← eval calls body env rhs
    op.apply body a b
  | binary _ (.compare op) lhs rhs => do
    let a ← eval calls body env lhs
    let b ← eval calls body env rhs
    op.apply a b
  | binary _ (.logic op) lhs rhs => do
    let a ← eval calls body env lhs
    let first ← a.asBool
    if op.decides first then return .bool first
    else eval calls body env rhs
  | not _ operand => do
    let a ← eval calls body env operand
    let holds ← a.asBool
    return .bool (!holds)
  | input _ prompt => do
    let a ← eval calls body env prompt
    let text ← a.asStr
    Eval.write text
    let n ← Eval.read
    return .int n
  | convert _ target operand => do
    let a ← eval calls body env operand
    target.apply a
  | call _ callee args => do
    let values ← evalArgs calls body env args
    calls callee values

/-- The values of arguments, from the first to the last. -/
def evalArgs (calls : Calls) (body : Ident) (env : Env) :
    List (Expr α) → Eval (List Literal)
  | [] => return []
  | arg :: args => do
    let value ← eval calls body env arg
    let values ← evalArgs calls body env args
    return value :: values

end

/-- Evaluates an expression and prints its value. -/
def print (calls : Calls) (body : Ident) (env : Env) (e : Expr α) :
    Eval Unit := do
  let value ← e.eval calls body env
  Eval.write value.printed

/-- Prints the values of expressions, each after a blank. -/
def printMore (calls : Calls) (body : Ident) (env : Env) :
    List (Expr α) → Eval Unit
  | [] => return ()
  | e :: es => do
    Eval.write " "
    e.print calls body env
    printMore calls body env es

/-- **Prints the values of expressions** with a blank between two of them. -/
def printAll (calls : Calls) (body : Ident) (env : Env) :
    List (Expr α) → Eval Unit
  | [] => return ()
  | e :: es => do
    e.print calls body env
    printMore calls body env es

end Expr

/-! ## Statements -/

/-- **What comes of a statement.** -/
inductive Flow where
  /-- What follows is executed, in this environment. -/
  | next (env : Env)
  /-- The body has returned a value. -/
  | returned (value : Literal)

/-- A loop, which may go round as often as there is fuel. -/
def loop (cond : Env → Eval Bool) (once : Env → Eval Flow) :
    Nat → Env → Eval Flow
  | 0, _ => throw .outOfFuel
  | fuel + 1, env => do
    if ← cond env then
      match ← once env with
      | .next env => loop cond once fuel env
      | .returned value => return .returned value
    else return .next env

namespace Stmt

variable {α : Type}

mutual

/-- **Executes a statement** of the body of this name. -/
def exec (calls : Calls) (body : Ident) (fuel : Nat) :
    Stmt α → Env → Eval Flow
  | introduce _ name _ init, env => do
    let value ← init.eval calls body env
    return .next (env.set name value)
  | assign _ name value, env => do
    let value ← value.eval calls body env
    return .next (env.set name value)
  | update _ op name operand, env => do
    let current ← env.read body name
    let value ← operand.eval calls body env
    let value ← op.op.apply body current value
    return .next (env.set name value)
  | pass _, env => return .next env
  | print _ args, env => do
    Expr.printAll calls body env args
    Eval.write "\n"
    return .next env
  | ret _ value, env => do
    let value ← value.eval calls body env
    return .returned value
  | retUnit _, _ => return .returned .unit
  | call _ callee args, env => do
    let values ← Expr.evalArgs calls body env args
    let _ ← calls callee values
    return .next env
  | ifElse _ cond thenBlock elseBlock, env => do
    let value ← cond.eval calls body env
    if ← value.asBool then execAll calls body fuel thenBlock.stmts env
    else execAll calls body fuel elseBlock.stmts env
  | whileLoop _ cond block, env =>
    loop (fun env => do
        let value ← cond.eval calls body env
        value.asBool)
      (fun env => execAll calls body fuel block.stmts env) fuel env

/-- **Executes statements**, one after the other. -/
def execAll (calls : Calls) (body : Ident) (fuel : Nat) :
    List (Stmt α) → Env → Eval Flow
  | [], env => return .next env
  | stmt :: rest, env => do
    match ← exec calls body fuel stmt env with
    | .next env => execAll calls body fuel rest env
    | .returned value => return .returned value

end

end Stmt

/-! ## Programs -/

namespace Definition

variable {α : Type}

/-- **Executes a definition**, which has to return. -/
def exec (calls : Calls) (fuel : Nat) (d : Definition α)
    (args : List Literal) : Eval Literal := do
  if args.length = d.params.length then
    match ← Stmt.execAll calls d.name fuel d.body.stmts
        (.enter (d.params.map Prod.fst) args) with
    | .returned value => return value
    | .next _ => throw .stuck
  else throw .stuck

end Definition

namespace Program

variable {α : Type}

/-- **The value of a call.** The body of the callee has less fuel. -/
def call (p : Program α) : Nat → Calls
  | 0, _, _ => throw .outOfFuel
  | fuel + 1, callee, args =>
    match p.definitions.find? (·.name == callee) with
    | some d => d.exec (p.call fuel) fuel args
    | none => throw .stuck

/-- **Executes a program**, whose main script must not return. -/
def exec (p : Program α) (fuel : Nat) : Eval Unit := do
  match ← Stmt.execAll (p.call fuel) entryPoint fuel p.main.stmts .empty with
  | .next _ => return ()
  | .returned _ => throw .stuck

end Program

end Primer
