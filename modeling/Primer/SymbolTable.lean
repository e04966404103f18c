import Primer.Scope
import Primer.Text.Decimal
import Primer.Text.Outline

/-!
# Symbol tables

One table holds all scopes of a program: a *global* scope, and one *nested*
scope for each body of code, all of them directly inside the global one. A
scope is referred to by its `ScopeId`. That the global scope exists, and that
it is the parent of every other one, is then in the types, and no operation
has to keep it true.

The table also makes up names, for temporaries, for positions in the code and
for texts. A made-up name ends in the value of a counter that all scopes
share and that no two names use. It begins with `%` or with a point, which is
what keeps it apart from the names of a program, as far as those do not begin
so themselves.

A text gets one name however often it is asked for. Nothing is stored for
that: the texts that have names are the global symbols that stand for texts,
so `intern` looks there.

How a table is kept, with indexes, with maps and with a stored parent for each
scope, is in `Indexed/Table`.
-/

namespace Primer

open Text

/-- A place where a frame keeps a value, by name. -/
abbrev Slot := String

/-- A position in the code or a text that the code refers to, by name. -/
abbrev Label := String

/-- **Which scope of a table.** -/
inductive ScopeId where
  /-- The scope around all others. -/
  | global
  /-- The nested scope with this index, counted from the first one made. -/
  | nested (index : Nat)
  deriving DecidableEq

namespace ScopeId

/-- A scope's number, the global one's being 0. -/
def number : ScopeId → Nat
  | global => 0
  | nested i => i + 1

/-- A scope's number as it is shown. -/
def text (id : ScopeId) : String := "SCOPE#" ++ Decimal.ofNat id.number

/-- The scope around a scope. -/
def parent? : ScopeId → Option ScopeId
  | global => none
  | nested _ => some global

end ScopeId

/-- **A symbol table.** -/
structure SymbolTable where
  /-- The scope around all others. -/
  global : Scope
  /-- The nested scopes, the first one made first. -/
  nested : List Scope
  /-- The number that the next made-up name ends in. -/
  counter : Nat
  deriving DecidableEq

namespace SymbolTable

/-- The table with an empty global scope and no other. -/
def empty : SymbolTable := ⟨.empty "<global>", [], 0⟩

/-- The scope that an id refers to. An id of another table may refer to
nothing here, which is then a scope without symbols. -/
def scope (t : SymbolTable) : ScopeId → Scope
  | .global => t.global
  | .nested i => t.nested[i]?.getD (.empty "")

/-- The table with a scope changed. -/
def modify (t : SymbolTable) (id : ScopeId) (change : Scope → Scope) :
    SymbolTable :=
  match id with
  | .global => { t with global := change t.global }
  | .nested i => { t with nested := t.nested.modify i change }

/-- **Opens a scope** for an owner. -/
def addScope (t : SymbolTable) (owner : String) : ScopeId × SymbolTable :=
  (.nested t.nested.length, { t with nested := t.nested ++ [.empty owner] })

/-- The index of the last scope of an owner in a list of scopes. -/
def lastOwned? (owner : String) : List Scope → Option Nat
  | [] => none
  | s :: later =>
    match lastOwned? owner later with
    | some i => some (i + 1)
    | none => if s.owner = owner then some 0 else none

/-- **The latest scope opened for an owner.** The global scope was opened for
nobody. -/
def scopeOf? (t : SymbolTable) (owner : String) : Option ScopeId :=
  (lastOwned? owner t.nested).map .nested

/-- **Adds a symbol to a scope, if its name is new there.** A name of the
global scope may be declared again in a nested one. -/
def declare (t : SymbolTable) (id : ScopeId) (symbol : Symbol) :
    Except SymbolError SymbolTable := do
  let scope ← (t.scope id).declare symbol
  return t.modify id fun _ => scope

/-- **What a name means in a scope**: the symbol of that scope, or else the
symbol of the global scope. -/
def lookup (t : SymbolTable) (id : ScopeId) (name : String) :
    Except SymbolError Symbol :=
  match (t.scope id).find? name <|> t.global.find? name with
  | some symbol => .ok symbol
  | none => .error (.notDeclared name)

/-- A name that ends in the counter, and the table after it. -/
def madeUp (t : SymbolTable) (stem : String) : String × SymbolTable :=
  (stem ++ Decimal.ofNat t.counter, { t with counter := t.counter + 1 })

/-- **A new temporary** of a scope. -/
def freshTemporary (t : SymbolTable) (id : ScopeId) (ty : Ty) :
    Slot × SymbolTable :=
  let (name, t) := t.madeUp "%t"
  (name, t.modify id (·.push (.temporary name ty)))

/-- **A new position** of a scope. The hint makes a listing easier to read. -/
def freshLabel (t : SymbolTable) (id : ScopeId) (hint : Option String) :
    Label × SymbolTable :=
  let (name, t) := t.madeUp ("." ++ hint.getD "L")
  (name, t.modify id (·.push (.label name)))

/-- The name under which a text was interned. -/
def labelOf? (t : SymbolTable) (text : String) : Option Label :=
  (t.global.newestFirst.find? (·.kind == .constant text)).map Symbol.name

/-- **The name of a text**, made up when the text is first asked for. -/
def intern (t : SymbolTable) (text : String) : Label × SymbolTable :=
  match t.labelOf? text with
  | some label => (label, t)
  | none =>
    let (name, t) := t.madeUp ".str"
    (name, t.modify .global (·.push (.constant name text)))

/-- **The text that a name stands for.** -/
def constant? (t : SymbolTable) (label : Label) : Option String :=
  (t.global.find? label).bind Symbol.constantText?

/-- The texts and their names, in the order in which they were interned. -/
def constants (t : SymbolTable) : List (Label × String) :=
  t.global.symbols.filterMap fun s =>
    s.constantText?.map fun text => (s.name, text)

/-- The symbols of a scope below its owner, as leaves. -/
def leaves (s : Scope) : List Outline :=
  s.symbols.map fun symbol => .node symbol.text []

/-- **The outline of a table**: the nested scopes, then the global symbols. -/
def outline (t : SymbolTable) : Outline :=
  .node t.global.owner
    ((t.nested.map fun s => .node s.owner (leaves s)) ++ leaves t.global)

end SymbolTable

end Primer
