/-!
# UTF-16 units

Indices and lengths of strings count UTF-16 units: a character beyond the basic plane has two, a
high and a low surrogate.
-/

namespace DeltaForm

/-- The UTF-16 units of a character. -/
def charUnits (c : Char) : List Nat :=
  let n := c.toNat
  if n < 0x10000 then [n]
  else [0xd800 + (n - 0x10000) / 0x400, 0xdc00 + (n - 0x10000) % 0x400]

/-- The UTF-16 units of a string. -/
def units (s : String) : List Nat := s.toList.flatMap charUnits

/-- The string of one unit; a surrogate on its own becomes the replacement character. -/
def unitText (u : Nat) : String :=
  (if u.isValidChar then Char.ofNat u else '�').toString

end DeltaForm
