import DeltaForm.Number.Parts
import Mathlib

/-!
# Numbers, their bits and their parts

A number is determined by its parts (`Parts.of_injective`), and its bits are put together from them:
for numbers of at least zero, the bits count the numbers from zero up to them, and infinity comes
after all finite ones. The parts are also what the arithmetic of numbers works with
(`Parts.of_eq`), and `Parts.exact` gives the number that has the parts asked for (`Parts.of_exact`).

Only `Mathlib` as a whole brings the lemmas on how floats are packed and compared, so this module
imports all of it, and the others that need these lemmas import this one.
-/

namespace DeltaForm

open Float.Model (UnpackedFloat Format)
open Float.Model.UnpackedFloat (Sign unpackExponent unpackMantissa unpackSign)

variable {x y : Float} {neg : Bool} {mant : Nat} {exp : Int}

theorem Number.eq_of_toBits (h : x.toBits.toNat = y.toBits.toNat) : x = y :=
  Float.toBits_inj.1 (UInt64.toNat_inj.1 h)

/-- The bits of the positive infinity. -/
def Number.infinityBits : Nat := 2047 * Parts.leadingBit

namespace Parts

/-! ### The parts in the arithmetic of numbers -/

/-- The parts of a number from those that its arithmetic works with. -/
def ofUnpacked : UnpackedFloat → Parts
  | .notANumber => .nan
  | .infinity s => .infinite (s == .negative)
  | .zero s => .finite (s == .negative) 0 (-1074)
  | .finite s mant exp _ => .finite (s == .negative) mant exp

theorem toNat_unpackExponent (b : BitVec 64) :
    (@unpackExponent .binary64 b).toNat = (b.toNat >>> 52) % 2048 := by
  simp [unpackExponent, BitVec.extractLsb, BitVec.extractLsb']

theorem toNat_unpackMantissa (b : BitVec 64) :
    (@unpackMantissa .binary64 b).toNat = b.toNat % leadingBit := by
  simp [unpackMantissa, BitVec.extractLsb, BitVec.extractLsb', leadingBit]

theorem toNat_unpackSign (b : BitVec 64) :
    (@unpackSign .binary64 b).toNat = b.toNat >>> 63 := by
  have := b.isLt
  simp [unpackSign, BitVec.extractLsb, BitVec.extractLsb', Nat.shiftRight_eq_div_pow]
  omega

theorem ofBitVec_beq (b : BitVec 1) : (Sign.ofBitVec b == .negative) = (b.toNat == 1) := by
  rcases BitVec.eq_zero_or_eq_one b with rfl | rfl <;> rfl

theorem toNat_append_unpackMantissa (b : BitVec 64) :
    (1#1 ++ @unpackMantissa .binary64 b).toNat = leadingBit + b.toNat % leadingBit := by
  rw [BitVec.toNat_append, ← Nat.shiftLeft_add_eq_or_of_lt (BitVec.isLt _), toNat_unpackMantissa]
  rfl

theorem of_eq (x : Float) : of x = ofUnpacked x.toModel.unpack := by
  have hsign := (ofBitVec_beq _).trans
    (congrArg (· == 1) (toNat_unpackSign x.toBits.toBitVec))
  have hbias : ((Format.binary64.exponentBias : Int) + (52 : Nat)) = 1075 := rfl
  change _ = ofUnpacked (UnpackedFloat.unpack .binary64 x.toBits.toBitVec)
  simp only [UnpackedFloat.unpack, ← BitVec.toNat_inj, toNat_unpackExponent, toNat_unpackMantissa,
    hbias, of]
  -- the same three tests on both sides, once the words are read as naturals
  change _ = ofUnpacked (if x.toBits.toNat >>> 52 % 2048 = 2047 then
    if x.toBits.toNat % leadingBit = 0 then _ else _ else if x.toBits.toNat >>> 52 % 2048 = 0 then
      if h : x.toBits.toNat % leadingBit = 0 then _ else _ else _)
  split_ifs with hfield hfraction hfield' hfraction'
  · exact congrArg Parts.infinite hsign.symm
  · rfl
  · rw [hfraction', ofUnpacked, hsign]
    rfl
  · simp only [ofUnpacked, hsign]
    refine (Parts.finite.injEq ..).mpr ⟨rfl, rfl, ?_⟩
    change (-1074 : Int) = ((x.toBits.toNat >>> 52 % 2048 : Nat) : Int) - 1075 + 1
    rw [hfield']
    rfl
  · rw [ofUnpacked, hsign, toNat_append_unpackMantissa]
    rfl

theorem unpack_of_finite (h : of x = .finite false mant exp) (hmant : 0 < mant) :
    x.toModel.unpack = .finite .positive mant exp hmant := by
  rw [of_eq] at h
  cases hx : x.toModel.unpack with
  | notANumber | infinity s =>
    rw [hx] at h
    cases h
  | zero s =>
    rw [hx, ofUnpacked] at h
    obtain ⟨-, rfl, -⟩ := Parts.finite.inj h
    cases hmant
  | finite s m p =>
    rw [hx] at h
    cases s with
    | negative => cases h
    | positive =>
      cases h
      rfl

theorem isFinite_iff : x.isFinite = true ↔ ∃ neg mant exp, of x = .finite neg mant exp := by
  change x.toModel.unpack.isFinite = true ↔ _
  rw [of_eq]
  cases x.toModel.unpack <;> simp [ofUnpacked, UnpackedFloat.isFinite]

/-! ### Bits and parts -/

/-- What the parts of a finite number can be. -/
structure Legal (mant : Nat) (exp : Int) : Prop where
  mant_lt : mant < 2 * leadingBit
  le_exp : -1074 ≤ exp
  exp_le : exp ≤ 971
  normal : exp = -1074 ∨ leadingBit ≤ mant

/-- The weight of the sign bit. -/
def signBit (neg : Bool) : Nat := if neg then 0x8000000000000000 else 0

theorem toBits_eq (x : Float) : x.toBits.toNat = signBit (x.toBits.toNat >>> 63 == 1) +
    (x.toBits.toNat >>> 52 % 0x800) * leadingBit + x.toBits.toNat % leadingBit := by
  have hlt := x.toBits.toNat_lt
  simp only [Nat.shiftRight_eq_div_pow, signBit, leadingBit, beq_iff_eq]
  split_ifs <;> omega

theorem of_eq_finite (h : of x = .finite neg mant exp) : Legal mant exp ∧
    x.toBits.toNat = signBit neg + ((exp + 1074).toNat * leadingBit + mant) := by
  have hbits := toBits_eq x
  have hfraction := Nat.mod_lt x.toBits.toNat (show 0 < leadingBit by decide)
  have hlt : x.toBits.toNat >>> 52 % 2048 < 2048 := Nat.mod_lt _ (by decide)
  simp only [of] at h
  split_ifs at h with hfield _ hfield'
  · cases h
    rw [hfield'] at hbits
    exact ⟨⟨by omega, Int.le_refl _, by decide, .inl rfl⟩, by simpa using hbits⟩
  · cases h
    refine ⟨⟨by omega, by omega, by omega, .inr (by omega)⟩, ?_⟩
    rw [leadingBit] at *
    omega

theorem of_eq_infinite (h : of x = .infinite neg) :
    x.toBits.toNat = signBit neg + Number.infinityBits := by
  have hbits := toBits_eq x
  simp only [of] at h
  split_ifs at h with hfield hfraction
  cases h
  rwa [hfield, hfraction, Nat.add_zero] at hbits

/-- There is only one number that is none. -/
theorem of_eq_nan (h : of x = .nan) : x.toBits.toBitVec = UnpackedFloat.packedNaN .binary64 := by
  simp only [of] at h
  split_ifs at h with hfield hfraction
  refine x.toModel.valid.eq_packedNaN ?_ ?_
  · rw [← BitVec.toNat_inj]
    exact (toNat_unpackExponent _).trans hfield
  · rw [ne_eq, ← BitVec.toNat_inj]
    exact fun hzero => hfraction ((toNat_unpackMantissa _).symm.trans hzero)

/-- A number is determined by its parts. -/
theorem of_injective (h : of x = of y) : x = y := by
  refine Number.eq_of_toBits ?_
  cases hx : of x with
  | nan => exact congrArg BitVec.toNat ((of_eq_nan hx).trans (of_eq_nan (h ▸ hx)).symm)
  | infinite neg => rw [of_eq_infinite hx, of_eq_infinite (h ▸ hx)]
  | finite neg mant exp => rw [(of_eq_finite hx).2, (of_eq_finite (h ▸ hx)).2]

theorem signBit_add_inj {neg neg' : Bool} {m n : Nat} (hm : m < signBit true)
    (hn : n < signBit true) (h : signBit neg + m = signBit neg' + n) : neg = neg' ∧ m = n := by
  have hzero : signBit false = 0 := rfl
  cases neg <;> cases neg' <;> simp <;> omega

theorem Legal.bits_lt (h : Legal mant exp) :
    (exp + 1074).toNat * leadingBit + mant < Number.infinityBits := by
  obtain ⟨hlt, hle, hmost, -⟩ := h
  rw [Number.infinityBits]
  rw [leadingBit] at *
  omega

theorem infinityBits_lt : Number.infinityBits < signBit true := by decide

/-- The bits of a number that is finite or the positive infinity tell which. -/
theorem of_of_toBits_le (h : x.toBits.toNat ≤ Number.infinityBits) :
    (∃ mant exp, of x = .finite false mant exp) ∨
      of x = .infinite false ∧ x.toBits.toNat = Number.infinityBits := by
  have hsign : signBit true = 0x8000000000000000 := rfl
  have hlimit : Number.infinityBits = 0x7ff0000000000000 := rfl
  cases hx : of x with
  | nan =>
    have hbits : x.toBits.toNat = 0x7ff8000000000000 := congrArg BitVec.toNat (of_eq_nan hx)
    omega
  | infinite neg =>
    have hbits := of_eq_infinite hx
    cases neg with
    | true => omega
    | false => exact .inr ⟨rfl, hbits.trans (Nat.zero_add _)⟩
  | finite neg mant exp =>
    have hbits := (of_eq_finite hx).2
    cases neg with
    | true => omega
    | false => exact .inl ⟨mant, exp, rfl⟩

/-- The bits of a finite number tell its parts. -/
theorem of_of_toBits (h : Legal mant exp)
    (hbits : x.toBits.toNat = signBit neg + ((exp + 1074).toNat * leadingBit + mant)) :
    of x = .finite neg mant exp := by
  have hlimit := h.bits_lt
  have hmost := hlimit.trans infinityBits_lt
  cases hx : of x with
  | nan =>
    have hnan : x.toBits.toNat = signBit false + 0x7ff8000000000000 :=
      congrArg BitVec.toNat (of_eq_nan hx)
    have hsame := (signBit_add_inj hmost (by decide) (hbits.symm.trans hnan)).2
    rw [hsame] at hlimit
    exact absurd hlimit (by decide)
  | infinite neg' =>
    have hsame :=
      (signBit_add_inj hmost infinityBits_lt (hbits.symm.trans (of_eq_infinite hx))).2
    exact absurd hsame (Nat.ne_of_lt hlimit)
  | finite neg' m e =>
    obtain ⟨h', hbits'⟩ := of_eq_finite hx
    obtain ⟨rfl, hsame⟩ := signBit_add_inj hmost (h'.bits_lt.trans infinityBits_lt)
      (hbits.symm.trans hbits')
    obtain ⟨hlt, hle, -, hnormal⟩ := h
    obtain ⟨hlt', hle', -, hnormal'⟩ := h'
    have hparts : m = mant ∧ e = exp := by
      rw [leadingBit] at *
      omega
    rw [hparts.1, hparts.2]

/-! ### Putting a number together -/

theorem toBits_ofBits {n : Nat} (hlt : n < 0x10000000000000000) (hfield : n >>> 52 % 2048 ≠ 2047) :
    (Float.ofBits n.toUInt64).toBits.toNat = n := by
  have hword : n.toUInt64.toBitVec.toNat = n := Nat.mod_eq_of_lt hlt
  have hnan : ¬@UnpackedFloat.isNaNBits .binary64 n.toUInt64.toBitVec = true := by
    rw [UnpackedFloat.isNaNBits, decide_eq_true_iff]
    rintro ⟨hexponent, -⟩
    have := congrArg BitVec.toNat hexponent
    rw [toNat_unpackExponent, hword] at this
    exact hfield this
  change (UnpackedFloat.pack .binary64 (.unpack .binary64 n.toUInt64.toBitVec)).toNat = n
  rw [UnpackedFloat.pack_unpack, if_neg hnan, hword]

theorem of_ofBits (neg : Bool) (h : Legal mant exp) : of (Float.ofBits
    (signBit neg + ((exp + 1074).toNat * leadingBit + mant)).toUInt64) = .finite neg mant exp := by
  have hlimit := h.bits_lt
  have hsign : signBit neg = 0 ∨ signBit neg = 0x8000000000000000 := by cases neg <;> simp [signBit]
  generalize hn : (exp + 1074).toNat * leadingBit + mant = n at hlimit
  have hmost : n < 0x7ff0000000000000 := hlimit
  refine of_of_toBits h ?_
  rw [toBits_ofBits, hn]
  · omega
  · rw [Nat.shiftRight_eq_div_pow]
    omega

theorem signBit_eq (neg : Bool) : (if neg then 1 <<< 63 else 0) = signBit neg := by
  cases neg <;> rfl

theorem of_exact_zero (neg : Bool) (exp : Int) :
    of (exact neg 0 exp) = .finite neg 0 (-1074) := by
  have hlegal : Legal 0 (-1074) := ⟨by decide, Int.le_refl _, by decide, .inl rfl⟩
  have hparts := of_ofBits neg hlegal
  simp only [exact, signBit_eq, Nat.zero_shiftLeft, if_pos (show 0 < leadingBit by decide)]
  exact hparts

/-- The mantissa is moved up as far as it or the exponent allows. -/
theorem of_exact {k : Nat} (hk : min (52 - mant.log2) (exp + 1074).toNat = k)
    (hlegal : Legal (mant <<< k) (exp - k)) :
    of (exact neg mant exp) = .finite neg (mant <<< k) (exp - k) := by
  have hmagnitude : (if mant <<< k < leadingBit then mant <<< k
      else (exp - k + 1074).toNat * leadingBit + mant <<< k) =
      (exp - k + 1074).toNat * leadingBit + mant <<< k := by
    split_ifs with hlt
    · rw [hlegal.normal.resolve_right (Nat.not_le.2 hlt)]
      exact (Nat.zero_add _).symm
    · rfl
  simp only [exact, signBit_eq, hk, hmagnitude]
  exact of_ofBits neg hlegal

end Parts

end DeltaForm
