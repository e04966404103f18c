import Primer.Indexed.Table
import Primer.Typing.Program

/-!
# Checking over an indexed table

The check of a program with one indexed table for all bodies. Each body has a
scope of the table, which is opened when its turn comes, and the check of its
code is told the scope by its id. A variable is looked up there and, as the
table has it, in the scopes around; what is introduced is declared there.

An expression only reads the table (`Checking`). A statement may also add to
it (`Declaring`). The signatures are in a map, and a definition whose name the
map has is refused.

That this check is `Program.check` is shown in `Proofs/Indexed/Typing`.
-/

namespace Primer

/-- **A check that reads a table**: it succeeds or refuses, unless an operation
on the table breaks off. -/
abbrev Checking := ExceptT TypeError Attempt

/-- **A check that adds to a table.** -/
abbrev Declaring := StateT IndexedTable Checking

namespace IndexedTable

/-- The type of a variable in a scope. -/
def typeOf (t : IndexedTable) (id : ScopeId) (name : Ident) (span : Span) :
    Checking Ty := do
  let found ← t.lookup id name
  match found.toOption.bind Symbol.ty? with
  | some ty => return ty
  | none => refuse (.undeclaredVariable name) span

end IndexedTable

/-- Adds a symbol to a scope, if its name is new there. -/
def declareIn (id : ScopeId) (symbol : Symbol) (span : Span) :
    Declaring Unit := do
  let t ← get
  match ← t.declare id symbol with
  | .ok t => set t
  | .error _ => refuse (.redeclared symbol.name) span

/-! ## Expressions -/

namespace Expr

mutual

/-- **Checks an expression** in a scope of a table. -/
def checkIn (sigs : Signatures) (t : IndexedTable) (id : ScopeId) :
    Expr Span → Checking (Expr Judged)
  | lit span value => return lit ⟨span, value.ty⟩ value
  | var span name => do
    let ty ← t.typeOf id name span
    return var ⟨span, ty⟩ name
  | binary span op lhs rhs => do
    let lhs ← checkIn sigs t id lhs
    let rhs ← checkIn sigs t id rhs
    op.admit lhs.ty rhs.ty span
    return binary ⟨span, op.result⟩ op lhs rhs
  | not span operand => do
    let operand ← checkIn sigs t id operand
    operand.expectOperand .not .bool
    return not ⟨span, .bool⟩ operand
  | input span prompt => do
    let prompt ← checkIn sigs t id prompt
    prompt.expectOperand .input .str
    return input ⟨span, .int⟩ prompt
  | convert span target operand => do
    let operand ← checkIn sigs t id operand
    operand.expectConvertible target
    return convert ⟨span, target.result⟩ target operand
  | call span callee args => do
    let sig ← sigs.forCall callee args.length span
    let args ← checkArgsIn sigs t id callee 0 sig.params args
    return call ⟨span, sig.ret⟩ callee args

/-- Checks the arguments of a call against the parameters, from the parameter
with this index on. -/
def checkArgsIn (sigs : Signatures) (t : IndexedTable) (id : ScopeId)
    (callee : Ident) (index : Nat) :
    List Ty → List (Expr Span) → Checking (List (Expr Judged))
  | param :: params, arg :: args => do
    let arg ← checkIn sigs t id arg
    arg.expectArgument callee index param
    let args ← checkArgsIn sigs t id callee (index + 1) params args
    return arg :: args
  | _, _ => return []

end

/-- Checks expressions of which no type is asked, one after the other. -/
def checkAllIn (sigs : Signatures) (t : IndexedTable) (id : ScopeId) :
    List (Expr Span) → Checking (List (Expr Judged))
  | [] => return []
  | e :: rest => do
    let e ← e.checkIn sigs t id
    let rest ← checkAllIn sigs t id rest
    return e :: rest

end Expr

/-! ## Statements -/

namespace Stmt

/-- Checks a condition. -/
def checkConditionIn (sigs : Signatures) (t : IndexedTable) (id : ScopeId)
    (construct : Construct) (cond : Expr Span) :
    Checking (Expr Judged) := do
  let cond ← cond.checkIn sigs t id
  require (cond.ty = .bool)
    (.nonBooleanCondition construct cond.ty) cond.span
  return cond

mutual

/-- **Checks a statement** in a scope of the table. -/
def checkIn (sigs : Signatures) (expected : Expected) (id : ScopeId) :
    Stmt Span → Declaring (Stmt Judged × Returns)
  | introduce span name ty init => do
    let init ← init.checkIn sigs (← get) id
    init.expectValue ty
    declareIn id (.introduced name ty) span
    return (introduce span name ty init, .never)
  | assign span name value => do
    let target ← (← get).typeOf id name span
    let value ← value.checkIn sigs (← get) id
    value.expectValue target
    return (assign span name value, .never)
  | update span op name operand => do
    let target ← (← get).typeOf id name span
    require (target = .int) (.unaryOperand (.update op) .int target) span
    let operand ← operand.checkIn sigs (← get) id
    operand.expectValue target
    return (update span op name operand, .never)
  | pass span => return (pass span, .never)
  | print span args => do
    let args ← Expr.checkAllIn sigs (← get) id args
    return (print span args, .never)
  | ret span value =>
    match expected with
    | none => refuse .unexpectedReturn span
    | some ty => do
      let value ← value.checkIn sigs (← get) id
      require (value.ty = ty) (.returnTypeMismatch ty value.ty) value.span
      return (ret span value, .always ty)
  | retUnit span =>
    match expected with
    | none => refuse .unexpectedReturn span
    | some ty => do
      require (ty = .unit) (.returnTypeMismatch ty .unit) span
      return (retUnit span, .always .unit)
  | call span callee args => do
    let sig ← sigs.forCall callee args.length span
    let args ← Expr.checkArgsIn sigs (← get) id callee 0 sig.params args
    require (sig.ret = .unit) (.notAProcedure callee sig.ret) span
    return (call span callee args, .never)
  | ifElse span cond thenBlock elseBlock => do
    let cond ← checkConditionIn sigs (← get) id .ifElse cond
    let (one, oneReturns) ← checkAllIn sigs expected id .never thenBlock.stmts
    let (other, otherReturns) ←
      checkAllIn sigs expected id .never elseBlock.stmts
    let returns ← oneReturns.merge otherReturns span
    return (ifElse span cond ⟨one, thenBlock.span⟩ ⟨other, elseBlock.span⟩,
      returns)
  | whileLoop span cond body => do
    let cond ← checkConditionIn sigs (← get) id .whileLoop cond
    let (checked, returns) ← checkAllIn sigs expected id .never body.stmts
    return (whileLoop span cond ⟨checked, body.span⟩, returns.demote)

/-- Checks statements that come after code with the given summary. -/
def checkAllIn (sigs : Signatures) (expected : Expected) (id : ScopeId)
    (before : Returns) :
    List (Stmt Span) → Declaring (List (Stmt Judged) × Returns)
  | [] => return ([], before)
  | stmt :: rest => do
    let (first, firstReturns) ← checkIn sigs expected id stmt
    let returns ← before.sequence firstReturns stmt.span
    let (rest, returns) ← checkAllIn sigs expected id returns rest
    return (first :: rest, returns)

end

end Stmt

/-- Checks a block in a scope of the table. -/
def Block.checkIn (sigs : Signatures) (expected : Stmt.Expected)
    (id : ScopeId) (block : Block (Stmt Span)) :
    Declaring (Block (Stmt Judged) × Returns) := do
  let (stmts, returns) ←
    Stmt.checkAllIn sigs expected id .never block.stmts
  return (⟨stmts, block.span⟩, returns)

/-! ## Programs -/

/-- A map of signatures, by name. -/
abbrev SignatureMap := Std.HashMap Ident Signature

/-- What the check asks of a map of signatures. -/
def SignatureMap.signatures (map : SignatureMap) : Signatures := (map[·]?)

/-- **A checked program** and the indexed table of its symbols. -/
structure IndexedProgram where
  /-- The program with types noted. -/
  program : Program Judged
  /-- Its symbols. -/
  symbols : IndexedTable

namespace Definition

/-- The map with the signatures of definitions, if their names are new to it
and none is that of the main script. -/
def collect (map : SignatureMap) :
    List (Definition Span) → Check SignatureMap
  | [] => .ok map
  | d :: rest =>
    if d.name = Program.entryPoint ∨ map.contains d.name then
      refuse (.redeclared d.name) d.nameSpan
    else collect (map.insert d.name d.signature) rest

/-- Adds parameters to a scope. -/
def bindParamsIn (id : ScopeId) (nameSpan : Span) :
    List (Ident × Ty) → Declaring Unit
  | [] => return
  | (name, ty) :: params => do
    declareIn id (.formal name ty) nameSpan
    bindParamsIn id nameSpan params

/-- **Checks a definition** in a new scope of the table. -/
def checkIn (sigs : Signatures) (d : Definition Span) :
    Declaring (Definition Judged) := do
  let id ← modifyGet (·.addScope d.name)
  bindParamsIn id d.nameSpan d.params
  let (body, returns) ← d.body.checkIn sigs (some d.ret) id
  expectReturn d.name d.ret returns body.span
  return ⟨d.name, d.params, d.ret, body, d.nameSpan⟩

/-- Checks definitions one after the other. -/
def checkAllIn (sigs : Signatures) :
    List (Definition Span) → Declaring (List (Definition Judged))
  | [] => return []
  | d :: rest => do
    let d ← d.checkIn sigs
    let rest ← checkAllIn sigs rest
    return d :: rest

end Definition

namespace Program

/-- Checks the bodies of a program. -/
def checkBodies (sigs : Signatures) (p : Program Span) :
    Declaring (Program Judged) := do
  let definitions ← Definition.checkAllIn sigs p.definitions
  let id ← modifyGet (·.addScope entryPoint)
  let (main, _) ← p.main.checkIn sigs none id
  return ⟨definitions, main⟩

/-- **Checks a program** over an indexed table. -/
def checkIndexed (p : Program Span) : Checking IndexedProgram := do
  let map ← Definition.collect ∅ p.definitions
  let (program, symbols) ← (p.checkBodies map.signatures).run .empty
  return ⟨program, symbols⟩

end Program

end Primer
