import DeltaForm.Proofs.Number.Rounding

/-!
# The values of numbers, and the integers among them

A finite number has a rational value (`Number.value`), and rounding it toward zero gives the integer
that the number is cut to (`Number.integer`). The other way, an integer below `2 ^ 53` is the value
of a number, and `Float.ofInt` is that number (`isInteger_ofInt`).
-/

namespace DeltaForm

open Float.Model (UnpackedFloat Format)
open Float.Model.UnpackedFloat

variable {x : Float} {neg : Bool} {mant : ℕ} {exp : ℤ}

/-! ### The opposite number -/

namespace Parts

/-- The parts of the opposite number. -/
def opposite : Parts → Parts
  | .nan => .nan
  | .infinite neg => .infinite !neg
  | .finite neg mant exp => .finite (!neg) mant exp

theorem beq_negative_neg (s : Sign) : (-s == Sign.negative) = !(s == Sign.negative) := by
  cases s <;> rfl

theorem ofUnpacked_neg (u : UnpackedFloat) : ofUnpacked u.neg = (ofUnpacked u).opposite := by
  cases u with
  | notANumber => rfl
  | infinity s => exact congrArg Parts.infinite (beq_negative_neg s)
  | zero s => exact congrArg (Parts.finite · 0 (-1074)) (beq_negative_neg s)
  | finite s m e => exact congrArg (Parts.finite · m e) (beq_negative_neg s)

theorem unpack_packComponents_neg (s : Sign) (field : BitVec 11) (fraction : BitVec 52) :
    unpack .binary64 (packComponents .binary64 (-s) field fraction) =
      (unpack .binary64 (packComponents .binary64 s field fraction)).neg := by
  simp only [unpack, unpackSign_packComponents, unpackExponent_packComponents,
    unpackMantissa_packComponents, Sign.ofBitVec_toBitVec]
  split_ifs <;> rfl

theorem exists_packComponents {u : UnpackedFloat} (h : u ≠ .notANumber) :
    ∃ s field fraction, pack .binary64 u = packComponents .binary64 s field fraction ∧
      pack .binary64 u.neg = packComponents .binary64 (-s) field fraction := by
  cases u with
  | notANumber => exact absurd rfl h
  | infinity s => exact ⟨s, _, _, rfl, rfl⟩
  | zero s => exact ⟨s, _, _, rfl, rfl⟩
  | finite s m e =>
    simp only [UnpackedFloat.neg, pack]
    split_ifs
    · exact ⟨s, _, _, rfl, rfl⟩
    · exact ⟨s, _, _, rfl, rfl⟩
    · exact ⟨s, _, _, rfl, rfl⟩

theorem of_neg (x : Float) : of (-x) = (of x).opposite := by
  rw [of_eq, of_eq, ← ofUnpacked_neg]
  change ofUnpacked (unpack .binary64 (pack .binary64 x.toModel.unpack.neg)) = _
  by_cases hnan : x.toModel.unpack = .notANumber
  · rw [hnan]
    exact congrArg ofUnpacked unpack_packedNaN
  · obtain ⟨s, field, fraction, hpack, hneg⟩ := exists_packComponents hnan
    have hbits : pack .binary64 x.toModel.unpack = x.toBits.toBitVec :=
      pack_unpack_of_valid x.toModel.valid
    rw [hneg, unpack_packComponents_neg, ← hpack, hbits]
    rfl

end Parts

/-! ### Values -/

/-- A rational number without its fraction. -/
def towardZero (q : ℚ) : ℤ := if 0 ≤ q then ⌊q⌋ else ⌈q⌉

theorem towardZero_neg (q : ℚ) : towardZero (-q) = -towardZero q := by
  rcases lt_trichotomy q 0 with hneg | rfl | hpos
  · rw [towardZero, towardZero, if_pos (by linarith), if_neg (by linarith), Int.floor_neg]
  · rfl
  · rw [towardZero, towardZero, if_neg (by linarith), if_pos hpos.le, Int.ceil_neg]

theorem floor_div_two_pow (n : ℤ) (k : ℕ) : ⌊(n / 2 ^ k : ℚ)⌋ = n / 2 ^ k := by
  exact_mod_cast Rat.floor_intCast_div_natCast n (2 ^ k)

namespace Parts

/-- The value of the parts of a finite number, and zero otherwise. -/
def value : Parts → ℚ
  | .finite neg mant exp => if neg then -(mant * 2 ^ exp) else mant * 2 ^ exp
  | _ => 0

theorem value_opposite (p : Parts) : p.opposite.value = -p.value := by
  cases p with
  | nan | infinite => rfl
  | finite neg mant exp => cases neg <;> simp [opposite, value]

end Parts

namespace Number

/-- The value of a finite number, from the sign, the mantissa and the exponent that the arithmetic
of numbers works with. -/
def value (x : Float) : ℚ :=
  match x.toModel.unpack with
  | .finite .positive mant exp _ => mant * 2 ^ exp
  | .finite .negative mant exp _ => -(mant * 2 ^ exp)
  | _ => 0

theorem value_eq (x : Float) : value x = (Parts.of x).value := by
  rw [value, Parts.of_eq]
  cases x.toModel.unpack with
  | notANumber | infinity s => rfl
  | zero s => cases s <;> simp [Parts.ofUnpacked, Parts.value]
  | finite s mant exp => cases s <;> rfl

theorem value_neg (x : Float) : value (-x) = -value x := by
  rw [value_eq, value_eq, Parts.of_neg, Parts.value_opposite]

/-- The integer that a number is cut to: its value rounded toward zero, and zero for a number that
is not finite. -/
def integer (x : Float) : ℤ := if x.isFinite then towardZero (value x) else 0

/-! ### Integers as numbers -/

/-- The number is the integer `n`; the zero is the one without a sign. -/
structure IsInteger (x : Float) (n : ℤ) : Prop where
  isFinite : x.isFinite = true
  value_eq : value x = n
  ne_neg_zero : x ≠ -0

theorem isInteger_ofNat {n : ℕ} (h : n < 2 ^ 53) : IsInteger (Float.ofNat n) n := by
  have hnear := nearest_ofNat n
  obtain ⟨mant, exp, hlegal, hvalue⟩ :
      ∃ mant exp, Parts.Legal mant exp ∧ (mant * 2 ^ exp : ℚ) = n := by
    rcases Nat.eq_zero_or_pos n with rfl | hpos
    · exact ⟨0, -1074, ⟨by decide, le_rfl, by decide, .inl rfl⟩, by simp⟩
    · obtain ⟨mant, exp, hlegal, -, -, hvalue⟩ := exists_legal_natCast hpos h
      exact ⟨mant, exp, hlegal, hvalue⟩
  have hparts : Parts.of (Float.ofNat n) = .finite false mant exp :=
    (hvalue ▸ hnear).of_legal hlegal
  refine ⟨Parts.isFinite_iff.2 ⟨_, _, _, hparts⟩, ?_, hnear.ne_neg_zero⟩
  rw [value_eq, hparts, Int.cast_natCast, ← hvalue]
  rfl

theorem isInteger_neg {n : ℤ} (h : IsInteger x n) (hn : n ≠ 0) : IsInteger (-x) (-n) := by
  obtain ⟨neg, mant, exp, hx⟩ := Parts.isFinite_iff.1 h.isFinite
  refine ⟨Parts.isFinite_iff.2 ⟨!neg, mant, exp, by rw [Parts.of_neg, hx]; rfl⟩, ?_, ?_⟩
  · rw [value_neg, h.value_eq, Int.cast_neg]
  · intro hzero
    have hvalue : value 0 = 0 := (isInteger_ofNat (n := 0) (by decide)).value_eq
    have hopposite := congrArg value hzero
    rw [value_neg, value_neg, hvalue, h.value_eq, neg_inj, Int.cast_eq_zero] at hopposite
    exact hn hopposite

/-- An integer below `2 ^ 53` is a number. -/
theorem isInteger_ofInt {n : ℤ} (h : n.natAbs < 2 ^ 53) : IsInteger (Float.ofInt n) n := by
  cases n with
  | ofNat n => exact isInteger_ofNat h
  | negSucc n => exact isInteger_neg (isInteger_ofNat h) (by omega)

end Number

end DeltaForm
