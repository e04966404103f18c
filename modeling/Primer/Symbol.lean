import Primer.Ty
import Primer.Text.Quoted

/-!
# Symbols

A symbol is a name that something stands for: a place where a frame keeps a
value, a position in the code, or a text that the code refers to. Names of
all kinds share one space per scope, which is why a label and a variable can
be in each other's way.

Places have a type. Positions and texts have none, but a symbol is built by
hand in places that do not enforce that, so `Symbol` records what it was
given.
-/

namespace Primer

/-- What a symbol stands for. -/
inductive SymbolKind where
  /-- The place of a parameter. -/
  | formal
  /-- The place of a variable that the program introduces. -/
  | introduced
  /-- A place that the program does not mention. -/
  | temporary
  /-- A position in the code. -/
  | label
  /-- A text. -/
  | constant (text : String)
  deriving DecidableEq

namespace SymbolKind

/-- How a kind is called in the display of a symbol. -/
def name : SymbolKind → String
  | formal => "formal"
  | introduced => "local"
  | temporary => "temporary"
  | label => "label"
  | constant _ => "string"

end SymbolKind

/-- **A symbol.** -/
structure Symbol where
  /-- What it is called. -/
  name : String
  /-- What it stands for. -/
  kind : SymbolKind
  /-- The type of the values kept there, if it is a place. -/
  ty? : Option Ty
  deriving DecidableEq

namespace Symbol

/-- The symbol of a parameter. -/
def formal (name : String) (ty : Ty) : Symbol := ⟨name, .formal, some ty⟩

/-- The symbol of a variable. -/
def introduced (name : String) (ty : Ty) : Symbol :=
  ⟨name, .introduced, some ty⟩

/-- The symbol of a temporary. -/
def temporary (name : String) (ty : Ty) : Symbol :=
  ⟨name, .temporary, some ty⟩

/-- The symbol of a position. -/
def label (name : String) : Symbol := ⟨name, .label, none⟩

/-- The symbol of a text. -/
def constant (name text : String) : Symbol := ⟨name, .constant text, none⟩

/-- Whether a frame has to keep a value for the symbol. -/
def isStorage (s : Symbol) : Bool :=
  match s.kind with
  | .formal | .introduced | .temporary => true
  | .label | .constant _ => false

/-- The text that a symbol stands for, if it stands for one. -/
def constantText? (s : Symbol) : Option String :=
  match s.kind with
  | .constant text => some text
  | _ => none

/-- **A symbol as text.** A place without a type shows only its name. -/
def text (s : Symbol) : String :=
  match s.kind, s.ty? with
  | .constant text, _ => s.name ++ " = " ++ Text.quote text
  | .label, _ => s.name ++ " (label)"
  | kind, some ty => s.name ++ ": " ++ ty.name ++ " (" ++ kind.name ++ ")"
  | _, none => s.name

end Symbol

/-- **Why a symbol table refuses.** -/
inductive SymbolError where
  /-- The scope has the name already. -/
  | alreadyDeclared (name : String)
  /-- Neither the scope nor the one around it has the name. -/
  | notDeclared (name : String)
  deriving DecidableEq

/-- The refusal in one sentence. -/
def SymbolError.message : SymbolError → String
  | alreadyDeclared name =>
    "'" ++ name ++ "' is already declared in this scope"
  | notDeclared name => "'" ++ name ++ "' is not declared"

end Primer
