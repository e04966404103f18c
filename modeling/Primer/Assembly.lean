import Primer.Instr

/-!
# Assembled programs

What a program is turned into: one *routine* for each definition and one for
the main script, each a prototype and a list of instructions, and the symbol
table that the code refers to for its texts.

A routine is called by name, and the first one of the name is meant. The main
routine is not among those that can be called.
-/

namespace Primer

open Text

/-- What is known of a routine besides its code. -/
structure Prototype where
  /-- The name it is called by. -/
  name : Ident
  /-- The places of the arguments and their types, in order. -/
  params : List (Slot × Ty)
  /-- The type of the result. -/
  ret : Ty
  /-- The scope of the names that the code uses. -/
  scope : ScopeId
  deriving DecidableEq

/-- **A routine.** -/
structure Routine where
  /-- What is known of it. -/
  prototype : Prototype
  /-- What it executes. -/
  code : Code
  deriving DecidableEq

namespace Routine

/-- The name a routine is called by. -/
def name (r : Routine) : Ident := r.prototype.name

/-- The lines of a routine's listing. -/
def lines (r : Routine) : List String := r.code.map Instr.text

end Routine

/-- **An assembled program.** -/
structure Assembly where
  /-- The routines that can be called. -/
  routines : List Routine
  /-- The routine that a run starts with. -/
  main : Routine
  /-- The symbols of all code. -/
  symbols : SymbolTable
  deriving DecidableEq

namespace Assembly

/-- The routine that a name means in a call. -/
def routine? (a : Assembly) (name : Ident) : Option Routine :=
  a.routines.find? (·.name == name)

/-- The prototypes of the routines that can be called. -/
def prototypes (a : Assembly) : List Prototype :=
  a.routines.map Routine.prototype

/-- The line of a text in a listing. -/
def constantLine (constant : Label × String) : String :=
  constant.1 ++ ": " ++ quote constant.2

/-- **The lines of a program's listing**: the texts, then the routines and at
last the main routine, each after an empty line. -/
def lines (a : Assembly) : List String :=
  a.symbols.constants.map constantLine
    ++ (a.routines ++ [a.main]).flatMap fun r => "" :: r.lines

/-- The listing as text, each line ended by a line feed. -/
def listing (a : Assembly) : String := String.join (a.lines.map (· ++ "\n"))

end Assembly

end Primer
