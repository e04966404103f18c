import Std.Data.HashMap
import Primer.SymbolTable

/-!
# Indexed tables

A symbol table in the form in which it is kept. A scope has its symbols in an
array, the oldest first, and beside it an *index*, which maps a name to a
position in the array. A table has its scopes in an array, each with the scope
around it, and it maps owners to scopes and texts to names.

The types do not keep these parts in step. An index may hold a position beyond
the end of the array, an id may refer to no scope, and the scopes around a
scope may form a circle. So whatever reads an array is an `Attempt`, which
breaks off beyond the end, and a lookup that never comes to an end is an
attempt that breaks off too.

Symbols come in by two doors, as in a `Scope`: `IndexedScope.declare` looks
into the index first, and `IndexedScope.push` does not. Both write down the
position of the new symbol under its name, over the position of an older
symbol if there is one.
-/

namespace Primer

open Text

/-- **What an operation gives**, if it does not break off. -/
abbrev Attempt := Option

/-! ## Scopes -/

/-- **A scope with an index.** -/
structure IndexedScope where
  /-- The definition that the scope belongs to. -/
  owner : String
  /-- The scope around it. -/
  parent : Option ScopeId
  /-- The symbols, the oldest first. -/
  symbols : Array Symbol
  /-- Where the newest symbol of a name is. -/
  index : Std.HashMap String Nat

namespace IndexedScope

/-- A scope without symbols. -/
def empty (owner : String) (parent : Option ScopeId) : IndexedScope :=
  ⟨owner, parent, #[], ∅⟩

/-- The symbol at the position that the index has for a name. -/
def find (s : IndexedScope) (name : String) : Attempt (Option Symbol) :=
  match s.index[name]? with
  | none => some none
  | some position => s.symbols[position]?.map some

/-- The scope with one more symbol, whatever its name. -/
def push (s : IndexedScope) (symbol : Symbol) : IndexedScope where
  owner := s.owner
  parent := s.parent
  symbols := s.symbols.push symbol
  index := s.index.insert symbol.name s.symbols.size

/-- **The scope with one more symbol, if the index does not have its name.** -/
def declare (s : IndexedScope) (symbol : Symbol) :
    Except SymbolError IndexedScope :=
  if s.index.contains symbol.name then
    .error (.alreadyDeclared symbol.name)
  else .ok (s.push symbol)

end IndexedScope

/-! ## Tables -/

/-- The id of the scope with this number. -/
def ScopeId.ofNumber : Nat → ScopeId
  | 0 => global
  | i + 1 => nested i

/-- **A table of scopes with indexes.** -/
structure IndexedTable where
  /-- The scopes, each at its number. -/
  scopes : Array IndexedScope
  /-- The latest scope of an owner. -/
  owners : Std.HashMap String ScopeId
  /-- The name of a text. -/
  strings : Std.HashMap String Label
  /-- The number that the next made-up name ends in. -/
  counter : Nat

namespace IndexedTable

/-- The table with an empty global scope and no other. -/
def empty : IndexedTable := ⟨#[.empty "<global>" none], ∅, ∅, 0⟩

/-- The scope that an id refers to. -/
def scope (t : IndexedTable) (id : ScopeId) : Attempt IndexedScope :=
  t.scopes[id.number]?

/-- The table with another scope in the place of one. -/
def setScope (t : IndexedTable) (id : ScopeId) (s : IndexedScope) :
    IndexedTable :=
  { t with scopes := t.scopes.setIfInBounds id.number s }

/-- **Opens a scope** for an owner, inside the global one. -/
def addScope (t : IndexedTable) (owner : String) : ScopeId × IndexedTable :=
  let id := ScopeId.ofNumber t.scopes.size
  (id, { t with
    scopes := t.scopes.push (.empty owner (some .global))
    owners := t.owners.insert owner id })

/-- **The latest scope opened for an owner.** -/
def scopeOf? (t : IndexedTable) (owner : String) : Option ScopeId :=
  t.owners[owner]?

/-- The scope around a scope. -/
def parent (t : IndexedTable) (id : ScopeId) : Attempt (Option ScopeId) :=
  (t.scope id).map IndexedScope.parent

/-- The owner of a scope. -/
def owner (t : IndexedTable) (id : ScopeId) : Attempt String :=
  (t.scope id).map IndexedScope.owner

/-- **Adds a symbol to a scope, if its name is new there.** -/
def declare (t : IndexedTable) (id : ScopeId) (symbol : Symbol) :
    Attempt (Except SymbolError IndexedTable) := do
  let s ← t.scope id
  return (s.declare symbol).map (t.setScope id)

/-- Looks for a name in a scope and in those around it, over at most this many
scopes. -/
def walk (t : IndexedTable) (name : String) :
    Nat → ScopeId → Attempt (Except SymbolError Symbol)
  | 0, _ => none
  | steps + 1, id => do
    let s ← t.scope id
    match ← s.find name with
    | some symbol => return .ok symbol
    | none =>
      match s.parent with
      | some parent => t.walk name steps parent
      | none => return .error (.notDeclared name)

/-- **What a name means in a scope**: its symbol in the first scope that has
one, on the way from the scope to those around it. A walk over more scopes
than the table has comes to one of them again, and would never end. -/
def lookup (t : IndexedTable) (id : ScopeId) (name : String) :
    Attempt (Except SymbolError Symbol) :=
  t.walk name t.scopes.size id

/-- A name that ends in the counter, and the table with its symbol in a scope.
-/
def make (t : IndexedTable) (id : ScopeId) (stem : String)
    (symbol : String → Symbol) : Attempt (String × IndexedTable) := do
  let s ← t.scope id
  let name := stem ++ Decimal.ofNat t.counter
  let t := { t with counter := t.counter + 1 }
  return (name, t.setScope id (s.push (symbol name)))

/-- **A new temporary** of a scope. -/
def freshTemporary (t : IndexedTable) (id : ScopeId) (ty : Ty) :
    Attempt (Slot × IndexedTable) :=
  t.make id "%t" (.temporary · ty)

/-- **A new position** of a scope. -/
def freshLabel (t : IndexedTable) (id : ScopeId) (hint : Option String) :
    Attempt (Label × IndexedTable) :=
  t.make id ("." ++ hint.getD "L") .label

/-- **The name of a text**, made up when the text is first asked for. -/
def intern (t : IndexedTable) (text : String) :
    Attempt (Label × IndexedTable) :=
  match t.strings[text]? with
  | some label => some (label, t)
  | none => do
    let (label, t) ← t.make .global ".str" (.constant · text)
    return (label, { t with strings := t.strings.insert text label })

/-- **The text that a name stands for.** -/
def constant (t : IndexedTable) (label : Label) : Attempt (Option String) := do
  let s ← t.scope .global
  let symbol ← s.find label
  return symbol.bind Symbol.constantText?

/-- The symbols of a scope, in the order in which they came. -/
def symbols (t : IndexedTable) (id : ScopeId) : Attempt (List Symbol) :=
  (t.scope id).map (·.symbols.toList)

/-- The parameters of a scope, in order. -/
def formals (t : IndexedTable) (id : ScopeId) : Attempt (List Symbol) :=
  (t.symbols id).map (·.filter (·.kind == .formal))

/-- The texts and their names, in the order in which they were interned. -/
def constants (t : IndexedTable) : Attempt (List (Label × String)) :=
  (t.symbols .global).map fun symbols => symbols.filterMap fun s =>
    s.constantText?.map fun text => (s.name, text)

/-- The scopes that have a scope around them, in the order of their numbers.
-/
def inside (t : IndexedTable) (id : ScopeId) : List ScopeId :=
  ((List.range t.scopes.size).map ScopeId.ofNumber).filter fun child =>
    t.parent child == some (some id)

/-- Draws a scope with what is inside it, over at most this many levels. -/
def draw (t : IndexedTable) : Nat → ScopeId → Attempt Outline
  | 0, _ => none
  | levels + 1, id => do
    let s ← t.scope id
    let scopes ← (t.inside id).mapM (t.draw levels)
    return .node s.owner
      (scopes ++ s.symbols.toList.map fun symbol => .node symbol.text [])

/-- **The outline of a table**: below a scope, the scopes inside it, and then
its symbols. With more levels than scopes, a scope would be inside itself. -/
def outline (t : IndexedTable) : Attempt Outline :=
  t.draw t.scopes.size .global

end IndexedTable

end Primer
