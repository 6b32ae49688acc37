import DeltaForm.Number.Parts

/-!
# Numbers as 32-bit words

The bitwise operators cut numbers to 32 bits: a number loses its fraction, is taken modulo `2 ^ 32`
as a number, and then becomes a word, which is read as a signed or an unsigned one. Shifts use the
last five bits of their amount.
-/

namespace DeltaForm

namespace Word

/-- The word of a number; infinities and not-a-number count as zero. -/
def ofFloat (x : Float) : BitVec 32 :=
  if x.isFinite then (Number.remEuclid (Number.trunc x) 4294967296).toUInt32.toInt32.toBitVec
  else 0

/-- The number of a signed word. -/
def signed (w : BitVec 32) : Float := Float.ofInt w.toInt

/-- The number of an unsigned word. -/
def unsigned (w : BitVec 32) : Float := Float.ofNat w.toNat

/-- A shift amount. -/
def amount (w : BitVec 32) : Nat := w.toNat % 32

/-- Shifts a word to the left. -/
def shl (a b : BitVec 32) : BitVec 32 := a <<< amount b

/-- Shifts a word to the right, keeping its sign. -/
def shr (a b : BitVec 32) : BitVec 32 := a.sshiftRight (amount b)

/-- Shifts a word to the right, with zeros from the left. -/
def ushr (a b : BitVec 32) : BitVec 32 := a >>> amount b

end Word

end DeltaForm
