import Primer.Expr
import Primer.SymbolTable

/-!
# Instructions

The code of a body is a list of instructions. They work on the places of one
frame, by name, and pass control by label: a label is an instruction of its
own, which does nothing but be found. There are no nested instructions, so
whatever structure a program had is spelled out in labels and jumps.

The operators are those of the syntax tree. What a program can write between
two operands and what one instruction can do with two places are the same
five operations and three tests.
-/

namespace Primer

open Text

/-- A test of one integer. -/
inductive ZeroTest where
  /-- It is zero. -/
  | zero
  /-- It is not zero. -/
  | nonZero
  deriving DecidableEq

/-- **An instruction.** -/
inductive Instr where
  /-- A position that jumps can name. -/
  | label (name : Label)
  /-- The start of a body. -/
  | enter
  /-- The end of a body: back to the caller. -/
  | leave
  /-- Copies a value. -/
  | move (dst src : Slot)
  /-- Stores an integer. -/
  | set (dst : Slot) (value : Int64)
  /-- Stores the result of an operation. -/
  | arith (op : ArithOp) (dst lhs rhs : Slot)
  /-- Goes to a label. -/
  | jump (target : Label)
  /-- Goes to one of two labels, by a comparison of two values. -/
  | branchCompare (op : Comparison) (lhs rhs : Slot) (ifTrue ifFalse : Label)
  /-- Goes to one of two labels, by a test of an integer. -/
  | branchZero (test : ZeroTest) (src : Slot) (ifTrue ifFalse : Label)
  /-- Sets aside an argument of the next call. -/
  | setArgument (index : UInt64) (src : Slot)
  /-- Calls a routine. -/
  | call (callee : Ident)
  /-- Stores what the last callee handed back. -/
  | fetchResult (dst : Slot)
  /-- Sets what this body will hand back. -/
  | setResult (src : Slot)
  /-- Stores a text. -/
  | loadString (dst : Slot) (constant : Label)
  /-- Writes an integer. -/
  | printInt (src : Slot)
  /-- Writes a text. -/
  | printString (src : Slot)
  /-- Stores the next integer of the input. -/
  | readInt (dst : Slot)
  /-- Stores the numeral of an integer. -/
  | intToStr (dst src : Slot)
  /-- Stores the integer that a text is the numeral of. -/
  | strToInt (dst src : Slot)
  /-- Does nothing. -/
  | nop
  deriving DecidableEq

/-- A list of instructions. -/
abbrev Code := List Instr

/-- How an operation is called in a listing. -/
def ArithOp.mnemonic : ArithOp → String
  | add => "ADD"
  | sub => "SUB"
  | mul => "MUL"
  | div => "DIV"
  | mod => "MOD"

/-- How a comparison is called in a listing. -/
def Comparison.mnemonic : Comparison → String
  | less => "lt"
  | lessEq => "le"
  | equal => "eq"

/-- How a test is called in a listing. -/
def ZeroTest.mnemonic : ZeroTest → String
  | zero => "eqz"
  | nonZero => "nez"

namespace Instr

/-- The name of an instruction and its operands, the latter separated by
commas, indented. -/
def indented (mnemonic : String) (operands : List String) : String :=
  "    " ++ mnemonic ++ ", ".intercalate operands

/-- **An instruction in a listing.** A label stands at the margin, before a
colon; every other instruction is indented by four blanks. -/
def text : Instr → String
  | label name => name ++ ":"
  | enter => "    ENTER"
  | leave => "    LEAVE"
  | move dst src => indented "MOVE " [dst, src]
  | set dst value => indented "SET " [dst, Decimal.ofInt64 value]
  | arith op dst lhs rhs => indented (op.mnemonic ++ " ") [dst, lhs, rhs]
  | jump target => indented "JUMP " [target]
  | branchCompare op lhs rhs ifTrue ifFalse =>
    indented ("BRANCH_CMP " ++ op.mnemonic ++ " ") [lhs, rhs, ifTrue, ifFalse]
  | branchZero test src ifTrue ifFalse =>
    indented ("BRANCH_ZERO " ++ test.mnemonic ++ " ") [src, ifTrue, ifFalse]
  | setArgument index src =>
    indented "SET_ARG " [Decimal.ofNat index.toNat, src]
  | call callee => indented "CALL " [callee]
  | fetchResult dst => indented "RETURN_VALUE " [dst]
  | setResult src => indented "RETURN " [src]
  | loadString dst constant => indented "LOAD_STRING " [dst, constant]
  | printInt src => indented "PRINT_INT " [src]
  | printString src => indented "PRINT_STRING " [src]
  | readInt dst => indented "READ_INT " [dst]
  | intToStr dst src => indented "INT_TO_STR " [dst, src]
  | strToInt dst src => indented "STR_TO_INT " [dst, src]
  | nop => "    NOP"

end Instr

namespace Code

/-- The code from the last instruction on that is this label. -/
def atLabel? (name : Label) : Code → Option Code
  | [] => none
  | i :: rest =>
    match atLabel? name rest with
    | some found => some found
    | none => if i = .label name then some (i :: rest) else none

end Code

end Primer
