import DeltaForm.Number.Word
import DeltaForm.Proofs.Number.Integers

/-!
# Remainders of numbers and their words

A number becomes a 32-bit word in steps: it loses its fraction, is reduced modulo `2 ^ 32` as a
number, and is converted to an unsigned word. Main statement: none of these steps rounds or
saturates, so that the word is the integer part modulo `2 ^ 32` (`Word.ofFloat_eq`).

* What is put together with `Parts.exact` has the value asked for (`hasValue_exact`), so cutting off
  the fraction and the remainder of a division are exact (`hasValue_trunc`, `hasValue_remainder`).
* A negative remainder is moved up by one addition, which gives the number nearest to the sum
  (`nearest_add`). For integers the sum is a number itself (`hasValue_remEuclid`).
* The conversion cuts toward zero and saturates (`toNat_toUInt32`); a remainder is in its range.
-/

namespace DeltaForm

open Float.Model (UnpackedFloat Format)
open Float.Model.UnpackedFloat

variable {x y : Float} {neg : Bool} {mant : ℕ} {exp : ℤ} {q r : ℚ}

/-! ### Cutting fractions toward zero -/

theorem towardZero_natCast_div (m n : ℕ) : towardZero (m / n) = (m / n : ℕ) := by
  rw [towardZero, if_pos (by positivity), Rat.floor_natCast_div_natCast, Int.natCast_ediv]

theorem towardZero_div (a b : ℤ) : towardZero (a / b) = a.tdiv b := by
  obtain ⟨m, rfl | rfl⟩ := a.eq_nat_or_neg <;> obtain ⟨n, rfl | rfl⟩ := b.eq_nat_or_neg <;>
    simp only [Int.cast_neg, Int.cast_natCast, neg_div, div_neg, towardZero_neg,
      towardZero_natCast_div, Int.neg_tdiv, Int.tdiv_neg, Int.ofNat_tdiv]

theorem towardZero_intCast (n : ℤ) : towardZero n = n := by
  have hdiv := towardZero_div n 1
  rwa [Int.cast_one, div_one, Int.tdiv_one] at hdiv

namespace Parts

/-- A natural number with a sign. -/
def signed (neg : Bool) (n : ℕ) : ℤ := if neg then -n else n

theorem signed_tdiv (neg : Bool) (m n : ℕ) : (signed neg m).tdiv n = signed neg (m / n) := by
  cases neg with
  | false => exact (Int.ofNat_tdiv m n).symm
  | true => exact (Int.neg_tdiv ..).trans (congrArg Neg.neg (Int.ofNat_tdiv m n).symm)

theorem signed_tmod (neg neg' : Bool) (m n : ℕ) :
    (signed neg m).tmod (signed neg' n) = signed neg (m % n) := by
  have hmod : (m : ℤ).tmod n = (m % n : ℕ) := (Int.ofNat_tmod m n).symm
  cases neg <;> cases neg' <;>
    simp only [signed, if_true, Bool.false_eq_true, if_false, Int.neg_tmod, Int.tmod_neg, hmod]

theorem value_finite : (finite neg mant exp).value = signed neg mant * 2 ^ exp := by
  cases neg <;> simp [value, signed]

end Parts

namespace Number

theorem signed_shiftLeft (neg : Bool) (m k : ℕ) (e : ℤ) :
    (Parts.signed neg (m <<< k) : ℚ) * 2 ^ (e - k) = Parts.signed neg m * 2 ^ e := by
  have hvalue := shiftLeft_mul_two_zpow m k e
  cases neg with
  | false => exact hvalue
  | true =>
    simp only [Parts.signed, if_pos, Int.cast_neg, Int.cast_natCast, neg_mul]
    rw [hvalue]

/-- A value counted in a smaller unit. -/
theorem signed_mul_two_zpow {unit : ℤ} (neg : Bool) (m : ℕ) (h : unit ≤ exp) :
    (Parts.signed neg m : ℚ) * 2 ^ exp =
      Parts.signed neg (m <<< (exp - unit).toNat) * 2 ^ unit := by
  rw [← signed_shiftLeft neg m (exp - unit).toNat exp]
  congr 2
  omega

/-! ### Exact results -/

/-- The number is finite and has this value. -/
structure HasValue (x : Float) (q : ℚ) : Prop where
  isFinite : x.isFinite = true
  value_eq : value x = q

theorem hasValue_of_parts (h : Parts.of x = .finite neg mant exp) :
    HasValue x (Parts.signed neg mant * 2 ^ exp) :=
  ⟨Parts.isFinite_iff.2 ⟨_, _, _, h⟩, by rw [value_eq, h, Parts.value_finite]⟩

/-- A value whose mantissa fits is put together without rounding. -/
theorem hasValue_exact (neg : Bool) (hmant : mant < 2 * Parts.leadingBit) (hleast : -1074 ≤ exp)
    (hmost : exp ≤ 971) :
    HasValue (Parts.exact neg mant exp) (Parts.signed neg mant * 2 ^ exp) := by
  rcases Nat.eq_zero_or_pos mant with rfl | hpos
  · simpa [Parts.signed] using hasValue_of_parts (Parts.of_exact_zero neg exp)
  · have hlog : mant.log2 ≤ 52 := Nat.lt_succ_iff.1 ((Nat.log2_lt hpos.ne').2 hmant)
    generalize hk : min (52 - mant.log2) (exp + 1074).toNat = k
    have hlegal : Parts.Legal (mant <<< k) (exp - k) := by
      refine ⟨shiftLeft_lt (by omega), by omega, by omega, ?_⟩
      rw [or_iff_not_imp_left]
      intro hexp
      exact le_shiftLeft hpos (by omega)
    rw [← signed_shiftLeft neg mant k exp]
    exact hasValue_of_parts (Parts.of_exact hk hlegal)

/-- A number without its fraction is the integer that the number is cut to. -/
theorem hasValue_trunc (h : x.isFinite = true) : HasValue (trunc x) (integer x) := by
  obtain ⟨neg, mant, exp, hx⟩ := Parts.isFinite_iff.1 h
  have hvalue := hasValue_of_parts hx
  rw [integer, if_pos h, hvalue.value_eq]
  simp only [trunc, hx]
  split_ifs with hexp
  · obtain ⟨k, rfl⟩ := Int.eq_ofNat_of_zero_le hexp
    have hint : Parts.signed neg mant * 2 ^ (k : ℤ) =
        ((Parts.signed neg mant * 2 ^ k : ℤ) : ℚ) := by
      push_cast
      rw [zpow_natCast]
    rw [hint] at hvalue ⊢
    rwa [towardZero_intCast]
  · obtain ⟨k, rfl⟩ : ∃ k : ℕ, exp = -k := ⟨(-exp).toNat, by omega⟩
    have hlt : mant >>> k < 2 * Parts.leadingBit :=
      lt_of_le_of_lt (Nat.shiftRight_le _ _) (Parts.of_eq_finite hx).1.mant_lt
    have hwhole : towardZero (Parts.signed neg mant * 2 ^ (-k : ℤ)) =
        Parts.signed neg (mant >>> k) := by
      have hdiv := towardZero_div (Parts.signed neg mant) (2 ^ k : ℕ)
      rw [Parts.signed_tdiv, ← Nat.shiftRight_eq_div_pow] at hdiv
      push_cast at hdiv
      rwa [zpow_neg, zpow_natCast, ← div_eq_mul_inv]
    rw [neg_neg, Int.toNat_natCast, hwhole]
    simpa using hasValue_exact neg hlt (show -1074 ≤ 0 by decide) (by decide)

/-- The remainder of a division toward zero is exact. -/
theorem hasValue_remainder (hx : HasValue x q) (hy : HasValue y r) (hr : r ≠ 0) :
    HasValue (remainder x y) (q - r * towardZero (q / r)) := by
  obtain ⟨neg, m, e, hxparts⟩ := Parts.isFinite_iff.1 hx.isFinite
  obtain ⟨neg', n, f, hyparts⟩ := Parts.isFinite_iff.1 hy.isFinite
  obtain ⟨⟨hm, hleast, hmost, -⟩, -⟩ := Parts.of_eq_finite hxparts
  obtain ⟨⟨hn, hleast', -, -⟩, -⟩ := Parts.of_eq_finite hyparts
  obtain rfl := (hasValue_of_parts hxparts).value_eq.symm.trans hx.value_eq
  obtain rfl := (hasValue_of_parts hyparts).value_eq.symm.trans hy.value_eq
  have hzero : n ≠ 0 := by
    rintro rfl
    exact hr (by simp [Parts.signed])
  simp only [remainder, hxparts, hyparts, if_neg hzero]
  -- both values are counted in the smaller of the two units, and one of them does not change
  rw [signed_mul_two_zpow neg m (min_le_left e f), signed_mul_two_zpow neg' n (min_le_right e f)]
  have hlt : m <<< (e - min e f).toNat % n <<< (f - min e f).toNat < 2 * Parts.leadingBit := by
    rcases le_total e f with hle | hle
    · rw [min_eq_left hle, sub_self, Int.toNat_zero, Nat.shiftLeft_zero]
      exact lt_of_le_of_lt (Nat.mod_le _ _) hm
    · rw [min_eq_right hle, sub_self, Int.toNat_zero, Nat.shiftLeft_zero]
      exact (Nat.mod_lt _ (Nat.pos_of_ne_zero hzero)).trans hn
  have hvalue := hasValue_exact neg hlt (le_min hleast hleast') ((min_le_left e f).trans hmost)
  rwa [← Parts.signed_tmod neg neg', Int.tmod_def, ← towardZero_div, Int.cast_sub, Int.cast_mul,
    sub_mul, ← mul_div_mul_right _ _ (two_zpow_pos (min e f)).ne', mul_right_comm] at hvalue

/-! ### Remainders that are not negative -/

/-- What the arithmetic of numbers works with for a finite number. -/
theorem HasValue.unpack (h : HasValue x q) : (∃ s, x.toModel.unpack = .zero s ∧ q = 0) ∨
    ∃ s m e hm, x.toModel.unpack = .finite s m e hm ∧
      q = Parts.signed (s == .negative) m * 2 ^ e := by
  have hfinite : x.toModel.unpack.isFinite = true := h.isFinite
  rw [← h.value_eq, Number.value_eq, Parts.of_eq]
  cases hx : x.toModel.unpack with
  | notANumber | infinity s =>
    rw [hx] at hfinite
    cases hfinite
  | zero s => exact .inl ⟨s, rfl, by simp [Parts.ofUnpacked, Parts.value]⟩
  | finite s m e hm => exact .inr ⟨s, m, e, hm, rfl, Parts.value_finite⟩

theorem lt_zero_iff (h : HasValue x q) : x < 0 ↔ q < 0 := by
  have hzero : (0 : Float).toModel.unpack = .zero .positive := rfl
  change decide (x.toModel.unpack.lt (0 : Float).toModel.unpack = true) = true ↔ _
  rw [decide_eq_true_iff, hzero]
  obtain ⟨s, hx, rfl⟩ | ⟨s, m, e, hm, hx, rfl⟩ := h.unpack
  · rw [hx]
    exact iff_of_false Bool.false_ne_true (lt_irrefl 0)
  · rw [hx, Rat.mul_neg_iff_of_pos_right (two_zpow_pos e), Int.cast_lt_zero]
    cases s with
    | negative => exact iff_of_true rfl (neg_neg_of_pos (Int.natCast_pos.2 hm))
    | positive => exact iff_of_false Bool.false_ne_true (Int.natCast_nonneg m).not_gt

theorem hasValue_neg (h : HasValue x q) : HasValue (-x) (-q) := by
  obtain ⟨neg, mant, exp, hx⟩ := Parts.isFinite_iff.1 h.isFinite
  have hneg : Parts.of (-x) = .finite (!neg) mant exp := by rw [Parts.of_neg, hx]; rfl
  exact ⟨Parts.isFinite_iff.2 ⟨_, _, _, hneg⟩, by rw [value_neg, h.value_eq]⟩

theorem abs_eq (x : Float) : x.abs = x ∧ 0 ≤ value x ∨ x.abs = -x ∧ value x ≤ 0 := by
  have hpack : Float.ofModel (.pack x.toModel.unpack) = x :=
    eq_of_toBits (congrArg BitVec.toNat (pack_unpack_of_valid x.toModel.valid))
  have habs : x.abs = Float.ofModel (.pack x.toModel.unpack.abs) := rfl
  have hneg : -x = Float.ofModel (.pack x.toModel.unpack.neg) := rfl
  rw [value, habs, hneg]
  generalize x.toModel.unpack = u at hpack ⊢
  cases u with
  | notANumber => exact .inl ⟨hpack, le_rfl⟩
  | infinity s | zero s =>
    cases s with
    | positive => exact .inl ⟨hpack, le_rfl⟩
    | negative => exact .inr ⟨rfl, le_rfl⟩
  | finite s mant exp hm =>
    have hpos : (0 : ℚ) < mant * 2 ^ exp := mul_pos (Nat.cast_pos.2 hm) (two_zpow_pos exp)
    cases s with
    | positive => exact .inl ⟨hpack, hpos.le⟩
    | negative => exact .inr ⟨rfl, neg_nonpos.2 hpos.le⟩

theorem hasValue_abs (h : HasValue x q) : HasValue x.abs |q| := by
  obtain ⟨habs, hsign⟩ | ⟨habs, hsign⟩ := abs_eq x
  · rwa [habs, abs_of_nonneg (h.value_eq ▸ hsign)]
  · rw [habs, abs_of_nonpos (h.value_eq ▸ hsign)]
    exact hasValue_neg h

theorem apply_eq_signed (s : Sign) (n : ℕ) : s.apply n = Parts.signed (s == .negative) n := by
  cases s <;> rfl

/-- A sum is the number nearest to the sum of the values. -/
theorem nearest_add (hx : HasValue x q) (hy : HasValue y r) (hq : q ≠ 0) (hr : r ≠ 0)
    (h : 0 < q + r) : Nearest (q + r) (x + y) := by
  obtain ⟨s, m, e, hm, hxunpack, rfl⟩ := hx.unpack.resolve_left fun ⟨_, _, hzero⟩ => hq hzero
  obtain ⟨s', n, f, hn, hyunpack, rfl⟩ := hy.unpack.resolve_left fun ⟨_, _, hzero⟩ => hr hzero
  have hadd : x + y = .ofModel (.pack (normalize .binary64
      (s.apply (m <<< (e - min e f).toNat : ℕ) + s'.apply (n <<< (f - min e f).toNat : ℕ))
      (min e f) .positive)) := by
    change Float.ofModel (.pack (.add .binary64 x.toModel.unpack y.toModel.unpack)) = _
    rw [hxunpack, hyunpack]
    rfl
  rw [signed_mul_two_zpow _ m (min_le_left e f), signed_mul_two_zpow _ n (min_le_right e f),
    ← add_mul, ← Int.cast_add] at h ⊢
  rw [hadd, apply_eq_signed, apply_eq_signed]
  exact nearest_normalize (Int.cast_pos.1 (pos_of_mul_pos_left h (two_zpow_pos _).le)) _

theorem hasValue_ofNat {n : ℕ} (h : n < 2 ^ 53) : HasValue (Float.ofNat n) n :=
  ⟨(isInteger_ofNat h).isFinite, (isInteger_ofNat h).value_eq⟩

/-- A sum of integers that is below `2 ^ 53` is not rounded. -/
theorem hasValue_add {m n : ℤ} (hx : HasValue x m) (hy : HasValue y n) (hm : m ≠ 0) (hn : n ≠ 0)
    (hpos : 0 < m + n) (hlt : m + n < 2 ^ 53) : HasValue (x + y) (m + n : ℤ) := by
  have hnear := nearest_add hx hy (Int.cast_ne_zero.2 hm) (Int.cast_ne_zero.2 hn)
    (by exact_mod_cast hpos)
  obtain ⟨k, hk⟩ := Int.eq_ofNat_of_zero_le hpos.le
  rw [← Int.cast_add, hk, Int.cast_natCast] at hnear
  rw [hnear.unique (nearest_ofNat k), hk]
  exact hasValue_ofNat (by omega)

theorem emod_eq_ite {n d : ℤ} (hd : d ≠ 0) :
    n % d = if n.tmod d < 0 then n.tmod d + d.natAbs else n.tmod d := by
  have hmod := Int.emod_eq_tmod (a := n) (b := d)
  have hlower := Int.emod_nonneg n hd
  have hupper := Int.emod_lt n hd
  split_ifs at hmod ⊢ <;> omega

/-- The remainder of integers that is not negative is exact for divisors up to `2 ^ 53`. -/
theorem hasValue_remEuclid {n d : ℤ} (hx : HasValue x n) (hy : HasValue y d) (hd : d ≠ 0)
    (hlimit : d.natAbs ≤ 2 ^ 53) : HasValue (remEuclid x y) (n % d : ℤ) := by
  have hr : HasValue (remainder x y) (n.tmod d) := by
    have hvalue := hasValue_remainder hx hy (Int.cast_ne_zero.2 hd)
    rwa [towardZero_div, ← Int.cast_mul, ← Int.cast_sub, ← Int.tmod_def] at hvalue
  have habs : HasValue y.abs (d.natAbs : ℤ) := by
    have hvalue := hasValue_abs hy
    rwa [← Int.cast_abs, Int.abs_eq_natAbs] at hvalue
  have hlt : (n.tmod d).natAbs < d.natAbs := by
    rw [Int.natAbs_tmod]
    exact Nat.mod_lt _ (Int.natAbs_pos.2 hd)
  simp only [remEuclid, lt_zero_iff hr, Int.cast_lt_zero]
  rw [emod_eq_ite hd]
  split_ifs with hneg
  · exact hasValue_add hr habs (by omega) (by omega) (by omega) (by omega)
  · exact hr

/-! ### Conversion to a word -/

theorem roundToInt_eq (s : Sign) (m : ℕ) (e : ℤ) :
    roundToInt s m e = towardZero (Parts.signed (s == .negative) m * 2 ^ e) := by
  simp only [roundToInt, decreaseExponent, shiftToExponent]
  generalize hj : (e - 0).toNat = j
  generalize hk : (0 - (e - j)).toNat = k
  -- either the mantissa is moved up by `e` bits, or it loses `-e` bits
  have hexp : e - j = -(k : ℤ) := by omega
  have hvalue : ((m <<< j : ℕ) / 2 ^ k : ℚ) = m * 2 ^ e := by
    rw [← shiftLeft_mul_two_zpow m j e, hexp, zpow_neg, zpow_natCast, div_eq_mul_inv]
  have hextends := (extends_exact (m <<< j)).shiftRight k
  rw [hvalue] at hextends
  obtain ⟨hle, hlt⟩ := hextends.bounds
  generalize (ExtendedMantissa.ofMantissaAndAccuracy (m <<< j) .exact >>> k).mantissa = n
    at hle hlt ⊢
  have hfloor : towardZero (m * 2 ^ e) = n := by
    rw [towardZero, if_pos ((Nat.cast_nonneg n).trans hle), Int.floor_eq_iff]
    exact_mod_cast And.intro hle hlt
  cases s with
  | positive => exact hfloor.symm
  | negative =>
    rw [show (Parts.signed (Sign.negative == .negative) m * 2 ^ e : ℚ) = -(m * 2 ^ e) by
      simp [Parts.signed], towardZero_neg, hfloor]
    rfl

/-- Conversion to an integer type cuts toward zero. -/
theorem toInt_unpack (h : HasValue x q) (least most : ℤ) :
    x.toModel.unpack.toInt least most = towardZero q := by
  obtain ⟨s, hx, rfl⟩ | ⟨s, m, e, hm, hx, rfl⟩ := h.unpack
  · rw [hx]
    rfl
  · rw [hx]
    exact roundToInt_eq s m e

/-- The conversion to an unsigned word cuts toward zero and saturates. -/
theorem toNat_toUInt32 (h : HasValue x q) :
    x.toUInt32.toNat = min (towardZero q).toNat (2 ^ 32 - 1) := by
  change (UInt32.ofNatClamp (x.toModel.unpack.toInt 0 (UInt32.size - 1 : ℕ)).toNat).toNat = _
  rw [toInt_unpack h, UInt32.ofNatClamp]
  split_ifs with hlt
  · exact (min_eq_left (Nat.le_sub_one_of_lt hlt)).symm
  · exact (min_eq_right (Nat.sub_le_of_le_add (by omega))).symm

end Number

/-- The word of a number is its integer part modulo `2 ^ 32`. -/
theorem Word.ofFloat_eq (x : Float) : Word.ofFloat x = BitVec.ofInt 32 (Number.integer x) := by
  rw [Word.ofFloat]
  split_ifs with hfinite
  · have hmodulus : Number.HasValue 4294967296 ((4294967296 : ℤ) : ℚ) :=
      Number.hasValue_ofNat (n := 4294967296) (by decide)
    have hvalue := Number.hasValue_remEuclid (Number.hasValue_trunc hfinite) hmodulus (by decide)
      (by decide)
    rw [← BitVec.toNat_inj, BitVec.toNat_ofInt]
    change (Number.remEuclid _ _).toUInt32.toNat = _
    rw [Number.toNat_toUInt32 hvalue, towardZero_intCast]
    -- a remainder is in the range of the conversion
    omega
  · rw [Number.integer, if_neg hfinite]
    rfl

end DeltaForm
