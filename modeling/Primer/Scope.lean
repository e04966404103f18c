import Primer.Symbol

/-!
# Scopes

A scope is a list of symbols that only ever grows at its front. A name means
the newest symbol that has it. Symbols come in by two doors. `declare` refuses
a name that the scope has already, and is for the names of a program. `push`
refuses nothing, and is for names that were made up; a made-up name that is
not new takes the place of the older symbol, which stays in the list but is
no longer found.
-/

namespace Primer

/-- **A scope.** -/
structure Scope where
  /-- The definition that the scope belongs to. -/
  owner : String
  /-- The symbols, the newest first. -/
  newestFirst : List Symbol
  deriving DecidableEq

namespace Scope

/-- A scope without symbols. -/
def empty (owner : String) : Scope := ⟨owner, []⟩

/-- The symbols in the order in which they came. -/
def symbols (s : Scope) : List Symbol := s.newestFirst.reverse

/-- The newest symbol of this name. -/
def find? (s : Scope) (name : String) : Option Symbol :=
  s.newestFirst.find? (·.name == name)

/-- The scope with one more symbol, whatever its name. -/
def push (s : Scope) (symbol : Symbol) : Scope :=
  { s with newestFirst := symbol :: s.newestFirst }

/-- **The scope with one more symbol, if its name is new there.** -/
def declare (s : Scope) (symbol : Symbol) : Except SymbolError Scope :=
  if (s.find? symbol.name).isSome then
    .error (.alreadyDeclared symbol.name)
  else .ok (s.push symbol)

/-- The parameters, in order. -/
def formals (s : Scope) : List Symbol :=
  s.symbols.filter (·.kind == .formal)

@[simp] theorem find?_push_self (s : Scope) (symbol : Symbol) :
    (s.push symbol).find? symbol.name = some symbol := by
  simp [push, find?]

theorem find?_push_of_ne (s : Scope) {symbol : Symbol} {name : String}
    (h : symbol.name ≠ name) :
    (s.push symbol).find? name = s.find? name := by
  simp [push, find?, h]

@[simp] theorem symbols_push (s : Scope) (symbol : Symbol) :
    (s.push symbol).symbols = s.symbols ++ [symbol] := by
  simp [push, symbols]

end Scope

end Primer
