/-!
# Ranges of code points

A property of characters is kept as the list of closed ranges of code points that have it, in
increasing order. `Ranges.contains` is membership. `Ranges.hasLead` only looks at the first byte of
the UTF-8 form: it is true of every character that starts like one in the ranges.
-/

namespace DeltaForm

/-- Closed ranges of code points, in increasing order. -/
abbrev Ranges := List (Nat × Nat)

/-- Whether a character lies in one of the ranges. -/
def Ranges.contains (rs : Ranges) (c : Char) : Bool :=
  rs.any fun r => r.1 ≤ c.toNat && c.toNat ≤ r.2

/-- The first byte of the UTF-8 form of a code point. -/
def leadByte (n : Nat) : Nat :=
  if n < 0x80 then n
  else if n < 0x800 then 0xc0 + n / 0x40
  else if n < 0x10000 then 0xe0 + n / 0x1000
  else 0xf0 + n / 0x40000

/-- Whether some character in the ranges has the same first byte as `c`. First bytes grow with the
code points, so a range has all of them between those of its ends. -/
def Ranges.hasLead (rs : Ranges) (c : Char) : Bool :=
  rs.any fun r => leadByte r.1 ≤ leadByte c.toNat && leadByte c.toNat ≤ leadByte r.2

end DeltaForm
