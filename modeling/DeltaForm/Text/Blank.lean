import DeltaForm.Text.Ranges

/-!
# Blank characters

The characters with the Unicode property `White_Space`, and the text that is left when they are
taken off both ends.
-/

namespace DeltaForm

/-- The blank characters (property `White_Space`). -/
def blankRanges : Ranges := [
  (0x9, 0xd), (0x20, 0x20), (0x85, 0x85), (0xa0, 0xa0), (0x1680, 0x1680),
  (0x2000, 0x200a), (0x2028, 0x2029), (0x202f, 0x202f), (0x205f, 0x205f), (0x3000, 0x3000)]

/-- Whether a character is blank. -/
def isBlank (c : Char) : Bool := blankRanges.contains c

/-- A text without the blanks at its two ends. -/
def trimBlanks (cs : List Char) : List Char :=
  ((cs.dropWhile isBlank).reverse.dropWhile isBlank).reverse

end DeltaForm
