/-!
# Blank characters

The characters with the Unicode property `White_Space`: the ASCII blanks and
line ends, the next-line and no-break characters of Latin-1, the spaces of
various widths and the line and paragraph separators. A zero-width space is
not among them.

A text is trimmed of the blanks at its ends before it is read as a number,
and of nothing else.
-/

namespace Primer.Text

/-- **A blank character**: one with the property `White_Space`. -/
def isBlank (c : Char) : Bool :=
  let n := c.toNat
  (0x09 ≤ n && n ≤ 0x0D) || n == 0x20 || n == 0x85 || n == 0xA0 ||
    n == 0x1680 || (0x2000 ≤ n && n ≤ 0x200A) || n == 0x2028 ||
    n == 0x2029 || n == 0x202F || n == 0x205F || n == 0x3000

/-- A text without the blanks it starts and ends with. -/
def trim (cs : List Char) : List Char :=
  ((cs.dropWhile isBlank).reverse.dropWhile isBlank).reverse

end Primer.Text
