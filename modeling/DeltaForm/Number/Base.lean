/-!
# Digits and bases

Digits of the bases up to sixteen, the letters `a` to `f` of either case following on `9`, and the
bases that a mark after a leading zero selects: `0x`, `0b` and `0o`.
-/

namespace DeltaForm

/-- Whether a character is a hexadecimal digit. -/
def isHexDigit (c : Char) : Bool :=
  c.isDigit || ('a' ≤ c && c ≤ 'f') || ('A' ≤ c && c ≤ 'F')

/-- The value of a hexadecimal digit. -/
def digitValue (c : Char) : Nat :=
  if c.isDigit then c.toNat - 0x30
  else if 'a' ≤ c then c.toNat - 0x61 + 10
  else c.toNat - 0x41 + 10

/-- The value of a row of digits in a base. -/
def digitsValue (radix : Nat) (cs : List Char) : Nat :=
  cs.foldl (fun n c => n * radix + digitValue c) 0

/-- The first natural number that does not fit into 64 bits. -/
def wordLimit : Nat := 0x10000000000000000

/-- A base with its digits. -/
structure Base where
  /-- The number of digits. -/
  radix : Nat
  /-- Whether a character is one of them. -/
  isDigit : Char → Bool

namespace Base

/-- The base that a letter after a leading zero selects. -/
def ofMark? (mark : Char) : Option Base :=
  if mark = 'x' || mark = 'X' then some ⟨16, isHexDigit⟩
  else if mark = 'b' || mark = 'B' then some ⟨2, fun c => c = '0' || c = '1'⟩
  else if mark = 'o' || mark = 'O' then some ⟨8, fun c => '0' ≤ c && c ≤ '7'⟩
  else none

/-- The number of a row of digits; there has to be one, and it has to fit into 64 bits. -/
def read? (b : Base) (ds : List Char) : Option Float :=
  let n := digitsValue b.radix ds
  if !ds.isEmpty && ds.all b.isDigit && n < wordLimit then some (Float.ofNat n) else none

end Base

end DeltaForm
