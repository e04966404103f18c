import Primer.SymbolTable
import Primer.Typing.Stmt

/-!
# Checking programs

The names of the definitions are looked at first, since every body may call
every definition. Then the bodies are checked in the order of the text, the
main script last, each in a scope of its own that starts with its parameters.
A body of a definition has to return on every path; the main script must not
return at all.

The scopes are collected into the symbol table of the program in the same
order. The global scope stays empty: what goes there belongs to the code, and
there is none yet. A check that adds to one table all along, in the scope of
the body that it has come to, is in `Indexed/Typing`.
-/

namespace Primer

/-- **A checked program** and the scopes of its bodies. -/
structure TypedProgram where
  /-- The program with types noted. -/
  program : Program Judged
  /-- Its symbols. -/
  symbols : SymbolTable

namespace Definition

/-- The scope that a body starts with: its parameters. -/
def bindParams (scope : Scope) (nameSpan : Span) :
    List (Ident × Ty) → Check Scope
  | [] => .ok scope
  | (name, ty) :: params =>
    match scope.declare (.formal name ty) with
    | .ok scope => bindParams scope nameSpan params
    | .error _ => refuse (.redeclared name) nameSpan

/-- Asks that a body always return a value of the declared type. -/
def expectReturn (name : Ident) (ret : Ty) (returns : Returns)
    (span : Span) : Check Unit :=
  match returns with
  | .always ty => require (ty = ret) (.returnTypeMismatch ret ty) span
  | .maybe _ => refuse (.mightNotReturn name) span
  | .never => refuse (.neverReturns name) span

/-- **Checks a definition**, and gives the scope of its body with it. -/
def check (sigs : Signatures) (d : Definition Span) :
    Check (Definition Judged × Scope) := do
  let scope ← bindParams (.empty d.name) d.nameSpan d.params
  let body ← d.body.check sigs (some d.ret) scope
  expectReturn d.name d.ret body.returns body.code.span
  return (⟨d.name, d.params, d.ret, body.code, d.nameSpan⟩, body.scope)

/-- Checks definitions one after the other. -/
def checkAll (sigs : Signatures) :
    List (Definition Span) → Check (List (Definition Judged × Scope))
  | [] => return []
  | d :: rest => do
    let d ← d.check sigs
    let rest ← checkAll sigs rest
    return d :: rest

/-- Asks that no definition have the name of the main script or of an earlier
definition. -/
def expectDistinct (earlier : List Ident) :
    List (Definition Span) → Check Unit
  | [] => .ok ()
  | d :: rest =>
    if d.name = Program.entryPoint ∨ d.name ∈ earlier then
      refuse (.redeclared d.name) d.nameSpan
    else expectDistinct (d.name :: earlier) rest

end Definition

namespace Program

/-- **Checks a program.** -/
def check (p : Program Span) : Check TypedProgram := do
  Definition.expectDistinct [] p.definitions
  let definitions ← Definition.checkAll p.signature? p.definitions
  let main ← p.main.check p.signature? none (.empty entryPoint)
  let scopes := definitions.map Prod.snd ++ [main.scope]
  return ⟨⟨definitions.map Prod.fst, main.code⟩,
    { SymbolTable.empty with nested := scopes }⟩

end Program

end Primer
