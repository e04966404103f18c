import Primer.Text.Unprintable

/-!
# Quoted texts

A text is shown between double quotes, and what is shown tells the text. The
quote and the backslash are written after a backslash, and so are the tab,
the line feed, the carriage return and the null character, each under its
usual letter. Any other unprintable character is written as its code point in
hexadecimal between braces. Everything else stands for itself, the single
quote included.
-/

namespace Primer.Text

/-- A character as it stands between double quotes. -/
def escape (c : Char) : List Char :=
  match c with
  | '\x00' => ['\\', '0']
  | '\t' => ['\\', 't']
  | '\n' => ['\\', 'n']
  | '\r' => ['\\', 'r']
  | '"' => ['\\', '"']
  | '\\' => ['\\', '\\']
  | c =>
    if isUnprintable c then
      ['\\', 'u', '\x7b'] ++ Nat.toDigits 16 c.toNat ++ ['\x7d']
    else [c]

/-- **A text between double quotes**, with every character that would not be
seen there, or would end it, escaped. -/
def quote (s : String) : String :=
  String.ofList ('"' :: (s.toList.flatMap escape ++ ['"']))

end Primer.Text
