import Primer.Emission.Error
import Primer.Emission.Stmt
import Primer.Typing.Program

/-!
# Code for programs

Every body becomes one routine of one shape: the label of its name, an
`enter`, the code of its statements, the label where all returns go, a
`leave`. The label of its name is declared in the global scope, so it has to
be new there. Labels inside the body belong to the scope of the body.

Routines are emitted in the order of the definitions, the main one last, over
one symbol table. The texts that any code may print are interned before all
of them.
-/

namespace Primer

/-- **The result of emitting code**, or why there is none. -/
abbrev Emitted := Except EmissionError

/-- The code of a body that starts with the label of its name. -/
def emitBody (constants : Constants) (scope : ScopeId) (entry : Label)
    (body : List (Stmt Judged)) : Emit Code := do
  let exit ← modifyGet (·.freshLabel scope (some "done"))
  let code ← Stmt.emitAll ⟨scope, exit, constants⟩ body
  return .label entry :: .enter :: code ++ [.label exit, .leave]

/-- The routine of a body, and the table after it. -/
def emitRoutine (constants : Constants) (table : SymbolTable)
    (name : Ident) (params : List (Slot × Ty)) (ret : Ty)
    (body : Block (Stmt Judged)) : Emitted (Routine × SymbolTable) :=
  match table.scopeOf? name with
  | none => .error (.missingScope name)
  | some scope =>
    match table.declare .global (.label name) with
    | .error _ => .error (.duplicateEntry name)
    | .ok table =>
      match Stmt.anyUnconvertible? body.stmts with
      | some error => .error error
      | none =>
        let (code, table) :=
          (emitBody constants scope name body.stmts).run table
        .ok (⟨⟨name, params, ret, scope⟩, code⟩, table)

/-- The routines of definitions, and the table after them. -/
def emitDefinitions (constants : Constants) (table : SymbolTable) :
    List (Definition Judged) → Emitted (List Routine × SymbolTable)
  | [] => .ok ([], table)
  | d :: rest => do
    let (routine, table) ←
      emitRoutine constants table d.name d.params d.ret d.body
    let (routines, table) ← emitDefinitions constants table rest
    return (routine :: routines, table)

/-- **The code for a checked program.** -/
def TypedProgram.emit (p : TypedProgram) : Emitted Assembly := do
  let (constants, table) := Emit.constants.run p.symbols
  let (routines, table) ←
    emitDefinitions constants table p.program.definitions
  let (main, table) ←
    emitRoutine constants table Program.entryPoint [] .unit p.program.main
  return ⟨routines, main, table⟩

end Primer
