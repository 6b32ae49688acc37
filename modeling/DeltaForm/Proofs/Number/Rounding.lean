import DeltaForm.Proofs.Number.Nearest

/-!
# Rounding to the nearest number

The arithmetic of numbers keeps a mantissa with a round bit and a sticky bit of an exact result
(`Extends`), shortens it to the exponent of the result and rounds it. Main statement: scientific
notation `m · 10 ^ e` is read as the number nearest to that value (`nearest_ofScientific`).

* Rounding what `Extends` a value gives the nearest number (`nearest_roundWithAccuracy`), hence so
  do products (`nearest_mul`) and quotients (`nearest_div`).
* A short mantissa and a small power of ten are numbers themselves (`exists_legal_natCast`,
  `isPowerOfTen_powers`), so one operation on them rounds only once.
-/

namespace DeltaForm

open Float.Model (UnpackedFloat Format totalExponent)
open Float.Model.UnpackedFloat

namespace Number

variable {y q : ℚ} {m n : ℕ} {e f : ℤ} {acc : Accuracy} {em : ExtendedMantissa}

/-! ### The bits beyond a mantissa -/

/-- The mantissa and its two bits are what is known of `y`: its integer part, whether the rest is at
least a half, and whether there is anything beyond that. -/
structure Extends (em : ExtendedMantissa) (y : ℚ) : Prop where
  le : (2 * em.mantissa + em.roundBit.toNat : ℚ) ≤ 2 * y
  lt : 2 * y < 2 * em.mantissa + em.roundBit.toNat + 1
  sticky : em.stickyBit = true ↔ (2 * em.mantissa + em.roundBit.toNat : ℚ) ≠ 2 * y

theorem Extends.bounds (h : Extends em y) : (em.mantissa : ℚ) ≤ y ∧ y < em.mantissa + 1 := by
  have hbit : (em.roundBit.toNat : ℚ) ≤ 1 := by exact_mod_cast em.roundBit.toNat_le
  have hzero : (0 : ℚ) ≤ em.roundBit.toNat := Nat.cast_nonneg _
  have hle := h.le
  have hlt := h.lt
  constructor <;> linarith

theorem Extends.roundedMantissa (h : Extends em y) : em.roundedMantissa = roundEven y := by
  have hbounds := h.bounds
  have hfloor : ⌊y⌋₊ = em.mantissa :=
    (Nat.floor_eq_iff (le_trans (Nat.cast_nonneg _) hbounds.1)).2 hbounds
  obtain ⟨m, b, s⟩ := em
  obtain ⟨hle, hlt, hsticky⟩ := h
  rw [roundEven, hfloor]
  cases b <;> cases s <;> simp at hle hlt hsticky
  · -- nothing is left beyond the mantissa
    rw [if_pos (by simp only; linarith)]
    rfl
  · rw [if_pos (by simp only; linarith)]
    rfl
  · -- exactly a half
    rw [if_neg (by simp only; linarith), if_pos (by simp only; linarith)]
    rfl
  · have hne : 2 * (y - m) ≠ 1 := fun h => hsticky (by linarith)
    rw [if_neg (by simp only; linarith), if_neg hne]
    rfl

theorem Extends.shiftRightOne (h : Extends em y) : Extends em.shiftRightOne (y / 2) := by
  have hbounds := h.bounds
  obtain ⟨m, b, s⟩ := em
  obtain ⟨hle, -, hsticky⟩ := h
  have hbit : (m % 2 != 0).toNat = m % 2 := by
    rcases Nat.mod_two_eq_zero_or_one m with h | h <;> rw [h] <;> rfl
  have hmant : (2 * (m / 2 : ℕ) + (m % 2 != 0).toNat : ℚ) = m := by
    rw [hbit]
    exact_mod_cast Nat.div_add_mod m 2
  have hdouble : 2 * (y / 2) = y := by ring
  constructor <;> simp only [ExtendedMantissa.shiftRightOne, hmant, hdouble]
  · exact hbounds.1
  · exact hbounds.2
  · cases b with
    | false => simpa [eq_comm] using hsticky
    | true =>
      have hne : (m : ℚ) ≠ y := by
        simp at hle
        intro h
        linarith
      simpa using hne

theorem Extends.shiftRight (h : Extends em y) (k : ℕ) : Extends (em >>> k) (y / 2 ^ k) := by
  change Extends (k.repeat ExtendedMantissa.shiftRightOne em) _
  induction k with
  | zero =>
    rw [pow_zero, div_one]
    exact h
  | succ k ih =>
    rw [pow_succ, ← div_div]
    exact ih.shiftRightOne

theorem extends_exact (m : ℕ) : Extends (.ofMantissaAndAccuracy m .exact) m := by
  constructor <;> simp [ExtendedMantissa.ofMantissaAndAccuracy]

/-- What is beyond a mantissa, told by its comparison with a half. -/
theorem extends_inexact {t : ℚ} (ht : 0 < t) (ht' : t < 1) :
    Extends (.ofMantissaAndAccuracy m (.inexact (compare (2 * t) 1))) (m + t) := by
  rcases lt_trichotomy (2 * t) 1 with h | h | h
  · rw [compare_lt_iff_lt.2 h]
    constructor <;> simp [ExtendedMantissa.ofMantissaAndAccuracy] <;> linarith
  · rw [compare_eq_iff_eq.2 h]
    constructor <;> simp [ExtendedMantissa.ofMantissaAndAccuracy] <;> linarith
  · rw [compare_gt_iff_gt.2 h]
    constructor <;> simp [ExtendedMantissa.ofMantissaAndAccuracy] <;> linarith

theorem compare_fraction (hn : 0 < n) : compare (2 * m) n = compare (2 * (m / n : ℚ)) 1 := by
  have hpos : (0 : ℚ) < n := Nat.cast_pos.2 hn
  rw [← mul_div_assoc]
  rcases lt_trichotomy (2 * m) n with h | h | h
  · rw [Nat.compare_eq_lt.2 h, compare_lt_iff_lt.2]
    rw [div_lt_one hpos]
    exact_mod_cast h
  · rw [Nat.compare_eq_eq.2 h, compare_eq_iff_eq.2]
    rw [div_eq_one_iff_eq hpos.ne']
    exact_mod_cast h
  · rw [Nat.compare_eq_gt.2 h, compare_gt_iff_gt.2]
    rw [one_lt_div hpos]
    exact_mod_cast h

theorem extends_fraction (hn : 0 < n) : Extends
    (.ofMantissaAndAccuracy (m / n) (accuracyOfFraction (m % n) n)) ((m : ℚ) / n) := by
  have hpos : (0 : ℚ) < n := Nat.cast_pos.2 hn
  have hrest : ((m % n : ℕ) : ℚ) < n := Nat.cast_lt.2 (Nat.mod_lt m hn)
  have hsplit : (m : ℚ) / n = (m / n : ℕ) + (m % n : ℕ) / n := by
    rw [div_eq_iff hpos.ne', add_mul, div_mul_cancel₀ _ hpos.ne']
    exact_mod_cast (Nat.div_add_mod' m n).symm
  rw [hsplit, accuracyOfFraction]
  split_ifs with hzero
  · rw [hzero, Nat.cast_zero, zero_div, add_zero]
    exact extends_exact (m / n)
  · rw [compare_fraction hn]
    exact extends_inexact (div_pos (Nat.cast_pos.2 (Nat.pos_of_ne_zero hzero)) hpos)
      ((div_lt_one hpos).2 hrest)

/-! ### Packing -/

open Parts (leadingBit)

theorem toNat_packComponents (field : BitVec 11) (fraction : BitVec 52) :
    (packComponents .binary64 .positive field fraction).toNat =
      field.toNat * leadingBit + fraction.toNat := by
  have hfield : (Sign.positive.toBitVec ++ field).toNat = field.toNat := by
    rw [BitVec.toNat_append]
    simp [Sign.toBitVec]
  have := BitVec.toNat_append (Sign.positive.toBitVec ++ field) fraction
  rw [← Nat.shiftLeft_add_eq_or_of_lt fraction.isLt, hfield, Nat.shiftLeft_eq] at this
  exact this

theorem toBits_pack_finite (hm : 0 < m) (hlt : m < 2 * leadingBit) (he : -1074 ≤ e)
    (hnormal : e = -1074 ∨ leadingBit ≤ m) :
    (Float.Model.pack (.finite .positive m e hm)).toBits.toNat =
      min ((e + 1074).toNat * leadingBit + m) infinityBits := by
  have hinfinity : (packedInfinity .binary64 .positive).toNat = infinityBits := by decide
  have hlog : m.log2 = 52 ↔ leadingBit ≤ m := by
    rw [Nat.log2_eq_iff hm.ne']
    exact and_iff_left hlt
  change (if 2048 ≤ (e + (1023 : ℕ) + (52 : ℕ)).toNat + 1 then packedInfinity .binary64 .positive
    else if m.log2 + 1 = 53 then
      packComponents .binary64 .positive (.ofNat 11 (e + (1023 : ℕ) + (52 : ℕ)).toNat) (.ofNat 52 m)
    else packComponents .binary64 .positive 0 (.ofNat 52 m)).toNat = _
  have hfield : (e + (1023 : ℕ) + (52 : ℕ)).toNat = (e + 1074).toNat + 1 := by omega
  rw [hfield]
  split_ifs with hlarge hlead
  · rw [hinfinity, min_eq_right]
    rw [infinityBits, leadingBit] at *
    omega
  · have hlead := hlog.1 (by omega)
    rw [toNat_packComponents, BitVec.toNat_ofNat, BitVec.toNat_ofNat, min_eq_left]
    all_goals
      simp only [infinityBits, leadingBit] at *
      omega
  · rw [toNat_packComponents, BitVec.toNat_ofNat, min_eq_left]
    all_goals
      rw [infinityBits, leadingBit] at *
      simp
      omega

/-! ### Rounding -/

/-- The exponent that a mantissa is brought to. -/
def target (m : ℕ) (e : ℤ) : ℤ := max (m.log2 + e - 52) (-1074)

theorem targetExponent_eq (m : ℕ) (e : ℤ) :
    Format.binary64.targetExponent (totalExponent m e) = target m e := by
  change max ((m.log2 : ℤ) + 1 + e - 53) (-1074) = _
  rw [target]
  congr 1
  ring

theorem le_target (hm : leadingBit ≤ m ∨ e ≤ -1074) : e ≤ target m e := by
  rcases hm with hm | he
  · have hpos : m ≠ 0 := (lt_of_lt_of_le (by decide) hm).ne'
    have hlog : 52 ≤ m.log2 := (Nat.le_log2 hpos).2 hm
    rw [target]
    omega
  · rw [target]
    omega

theorem mantissa_ofMantissaAndAccuracy (m : ℕ) (acc : Accuracy) :
    (ExtendedMantissa.ofMantissaAndAccuracy m acc).mantissa = m := by
  rcases acc with _ | _ | _ | _ <;> rfl

theorem gridExp_target (h : Extends (.ofMantissaAndAccuracy m acc) y)
    (hm : leadingBit ≤ m ∨ e ≤ -1074) : GridExp (y * 2 ^ e) (target m e) := by
  have hbounds := h.bounds
  rw [mantissa_ofMantissaAndAccuracy] at hbounds
  have hpow := two_zpow_pos e
  refine ⟨le_max_right _ _, ?_, ?_⟩
  · have hlt : y < 2 ^ (m.log2 + 1) := by
      refine hbounds.2.trans_le ?_
      exact_mod_cast Nat.lt_log2_self
    calc y * 2 ^ e < 2 ^ (m.log2 + 1) * 2 ^ e := mul_lt_mul_of_pos_right hlt hpow
      _ = 2 ^ (e + (m.log2 + 1 : ℕ)) := by rw [two_zpow_add, mul_comm]
      _ ≤ 2 ^ (target m e + 53) := zpow_le_zpow_right₀ one_le_two (by rw [target]; omega)
  · rcases Nat.eq_zero_or_pos m with rfl | hpos
    · left
      have he := hm.resolve_left (by decide)
      rw [target, Nat.log2_zero]
      omega
    · rw [or_iff_not_imp_left]
      intro hne
      have hle : (2 : ℚ) ^ m.log2 ≤ y := by
        refine le_trans ?_ hbounds.1
        exact_mod_cast Nat.log2_self_le hpos.ne'
      have hexp : target m e + 52 = e + m.log2 := by
        rw [target] at *
        omega
      rw [hexp, two_zpow_add, mul_comm]
      exact mul_le_mul_of_nonneg_right hle hpow.le

theorem shiftToTargetExponent_eq (h : Extends (.ofMantissaAndAccuracy m acc) y)
    (hm : leadingBit ≤ m ∨ e ≤ -1074) : ∃ em, Extends em (y * 2 ^ e / 2 ^ target m e) ∧
      shiftToTargetExponent .binary64 m e acc = (em, target m e) := by
  have hle := le_target hm
  refine ⟨ExtendedMantissa.ofMantissaAndAccuracy m acc >>> (target m e - e).toNat, ?_, ?_⟩
  · have hscale : y * 2 ^ e / 2 ^ target m e = y / 2 ^ (target m e - e).toNat := by
      have hexp : target m e = e + (target m e - e).toNat := by omega
      conv_lhs => rw [hexp, two_zpow_add]
      rw [mul_comm (2 ^ e), mul_div_mul_right _ _ (two_zpow_pos e).ne']
    rw [hscale]
    exact h.shiftRight _
  · rw [shiftToTargetExponent]
    simp only [targetExponent_eq, shiftToExponent]
    rw [Int.toNat_of_nonneg (by omega), add_sub_cancel]

/-- A rounded mantissa that has become too long is shortened without loss. -/
theorem exists_carried (hm : m ≤ 2 * leadingBit) (he : -1074 ≤ e)
    (hnormal : e = -1074 ∨ leadingBit ≤ m) : ∃ n f,
      shiftToTargetExponent .binary64 m e .exact = (⟨n, false, false⟩, f) ∧
        n < 2 * leadingBit ∧ -1074 ≤ f ∧ (f = -1074 ∨ leadingBit ≤ n) ∧
          (f + 1074).toNat * leadingBit + n = (e + 1074).toNat * leadingBit + m := by
  rcases hm.lt_or_eq with hlt | rfl
  · have hlog : m.log2 ≤ 52 := by
      rcases Nat.eq_zero_or_pos m with rfl | hpos
      · decide
      · exact Nat.lt_succ_iff.1 ((Nat.log2_lt hpos.ne').2 hlt)
    refine ⟨m, e, ?_, hlt, he, hnormal, rfl⟩
    simp only [shiftToTargetExponent, targetExponent_eq, shiftToExponent, target]
    rw [show (max (m.log2 + e - 52) (-1074) - e).toNat = 0 by omega]
    exact Prod.ext rfl (add_zero e)
  · have hlog : (2 * leadingBit).log2 = 53 := by decide
    refine ⟨leadingBit, e + 1, ?_, by decide, by omega, .inr le_rfl, ?_⟩
    · simp only [shiftToTargetExponent, targetExponent_eq, shiftToExponent, target, hlog]
      rw [show (max (((53 : ℕ) : ℤ) + e - 52) (-1074) - e).toNat = 1 by omega]
      rfl
    · rw [leadingBit]
      omega

theorem nearest_roundWithAccuracy (h : Extends (.ofMantissaAndAccuracy m acc) y)
    (hm : leadingBit ≤ m ∨ e ≤ -1074) :
    Nearest (y * 2 ^ e) (.ofModel (.pack (roundWithAccuracy .binary64 .positive m e acc))) := by
  have hgrid := gridExp_target h hm
  obtain ⟨em, hem, hshift⟩ := shiftToTargetExponent_eq h hm
  have hy : 0 ≤ y := (Nat.cast_nonneg _).trans h.bounds.1
  have hbounds := hgrid.roundEven_bounds (mul_nonneg hy (two_zpow_pos e).le)
  obtain ⟨n, f, hcarried, hlt, hf, hnormal, hbits⟩ :=
    exists_carried hbounds.1 hgrid.least hbounds.2
  refine ⟨_, hgrid, ?_⟩
  rw [← hbits, roundWithAccuracy, hshift]
  simp only [hem.roundedMantissa, hcarried]
  split_ifs with hzero
  · subst hzero
    obtain rfl := hnormal.resolve_right (by decide)
    rfl
  · exact toBits_pack_finite _ hlt hf hnormal

/-! ### Products and quotients -/

theorem nearest_mul (e f : ℤ) (hm : 0 < m) (hn : 0 < n) (h : leadingBit ≤ m) :
    Nearest (m * 2 ^ e * (n * 2 ^ f)) (.ofModel (.pack
      (UnpackedFloat.mul .binary64 (.finite .positive m e hm) (.finite .positive n f hn)))) := by
  have hlarge : leadingBit ≤ m * n := h.trans (Nat.le_mul_of_pos_right m hn)
  have hnear := nearest_roundWithAccuracy (e := e + f) (extends_exact (m * n)) (.inl hlarge)
  have hvalue : ((m * n : ℕ) : ℚ) * 2 ^ (e + f) = m * 2 ^ e * (n * 2 ^ f) := by
    rw [zpow_add₀ two_ne_zero]
    push_cast
    ring
  rwa [hvalue] at hnear

theorem two_pow_le_shiftLeft (hm : 0 < m) (k : ℕ) : 2 ^ (m.log2 + k) ≤ m <<< k := by
  rw [Nat.shiftLeft_eq, pow_add]
  exact Nat.mul_le_mul_right _ (Nat.log2_self_le hm.ne')

theorem le_shiftLeft {k : ℕ} (hm : 0 < m) (hk : 52 ≤ m.log2 + k) : leadingBit ≤ m <<< k :=
  calc leadingBit = 2 ^ 52 := rfl
    _ ≤ 2 ^ (m.log2 + k) := Nat.pow_le_pow_right two_pos hk
    _ ≤ m <<< k := two_pow_le_shiftLeft hm k

theorem shiftLeft_lt {k : ℕ} (hk : m.log2 + k ≤ 52) : m <<< k < 2 * leadingBit := by
  rw [Nat.shiftLeft_eq]
  calc m * 2 ^ k < 2 ^ (m.log2 + 1) * 2 ^ k :=
        Nat.mul_lt_mul_of_pos_right Nat.lt_log2_self (Nat.two_pow_pos _)
    _ = 2 ^ (m.log2 + 1 + k) := (pow_add ..).symm
    _ ≤ 2 ^ 53 := Nat.pow_le_pow_right Nat.two_pos (by omega)

theorem le_shiftLeft_div (hn : 0 < n) {k : ℕ} (hk : n.log2 + 53 ≤ m.log2 + k) (hm : 0 < m) :
    leadingBit ≤ m <<< k / n := by
  rw [Nat.le_div_iff_mul_le hn]
  calc leadingBit * n ≤ 2 ^ 52 * 2 ^ (n.log2 + 1) :=
        Nat.mul_le_mul_left _ Nat.lt_log2_self.le
    _ = 2 ^ (n.log2 + 53) := by rw [← pow_add]; ring
    _ ≤ 2 ^ (m.log2 + k) := Nat.pow_le_pow_right two_pos hk
    _ ≤ m <<< k := two_pow_le_shiftLeft hm k

theorem nearest_div (e f : ℤ) (hm : 0 < m) (hn : 0 < n) :
    Nearest (m * 2 ^ e / (n * 2 ^ f)) (.ofModel (.pack
      (UnpackedFloat.div .binary64 (.finite .positive m e hm) (.finite .positive n f hn)))) := by
  have htarget : Format.binary64.targetExponent (totalExponent m e - totalExponent n f) =
      max (m.log2 + e - (n.log2 + f) - 53) (-1074) := by
    change max ((m.log2 : ℤ) + 1 + e - (n.log2 + 1 + f) - 53) (-1074) = _
    congr 1
    ring
  simp only [UnpackedFloat.div, divCore, htarget]
  generalize ht : min (e - f) (max (m.log2 + e - (n.log2 + f) - 53) (-1074) : ℤ) = t
  have hlarge : leadingBit ≤ m <<< (e - f - t).toNat / n ∨ t ≤ -1074 := by
    rw [or_iff_not_imp_right]
    intro hnot
    exact le_shiftLeft_div hn (by omega) hm
  have hnear := nearest_roundWithAccuracy (e := t)
    (extends_fraction (m := m <<< (e - f - t).toNat) hn) hlarge
  have hvalue : ((m <<< (e - f - t).toNat : ℕ) : ℚ) / n * 2 ^ t = m * 2 ^ e / (n * 2 ^ f) := by
    have hexp : e = f + t + (e - f - t).toNat := by omega
    conv_rhs => rw [hexp, two_zpow_add, zpow_add₀ two_ne_zero]
    rw [Nat.shiftLeft_eq]
    push_cast
    have hpow := (two_zpow_pos f).ne'
    have hn' : (n : ℚ) ≠ 0 := Nat.cast_ne_zero.2 hn.ne'
    field_simp
  rwa [hvalue] at hnear

/-! ### Natural numbers and powers of ten -/

variable {x z : Float}

theorem shiftLeft_mul_two_zpow (m k : ℕ) (e : ℤ) :
    ((m <<< k : ℕ) : ℚ) * 2 ^ (e - k) = m * 2 ^ e := by
  conv_rhs => rw [← sub_add_cancel e k, two_zpow_add]
  rw [Nat.shiftLeft_eq]
  push_cast
  ring

theorem nearest_round (hm : 0 < m) :
    Nearest (m * 2 ^ e) (.ofModel (.pack (UnpackedFloat.round .binary64 .positive m e))) := by
  simp only [UnpackedFloat.round, decreaseExponent, targetExponent_eq, target]
  generalize hk : (e - max (m.log2 + e - 52) (-1074)).toNat = k
  have hlarge : leadingBit ≤ m <<< k ∨ e - k ≤ -1074 := by
    rw [or_iff_not_imp_right]
    intro hnot
    exact le_shiftLeft hm (by omega)
  have hnear := nearest_roundWithAccuracy (extends_exact (m <<< k)) hlarge
  rwa [shiftLeft_mul_two_zpow] at hnear

theorem nearest_normalize {t : ℤ} (ht : 0 < t) (s : Sign) :
    Nearest (t * 2 ^ e) (.ofModel (.pack (UnpackedFloat.normalize .binary64 t e s))) := by
  obtain ⟨m, rfl⟩ := Int.eq_ofNat_of_zero_le ht.le
  rw [UnpackedFloat.normalize, Int.compare_eq_gt.2 ht, Int.cast_natCast]
  exact nearest_round (Int.natCast_pos.1 ht)

theorem nearest_toFloat (w : UInt64) (hpos : 0 < w.toNat) : Nearest w.toNat w.toFloat := by
  have hnear := nearest_normalize (e := 0) (Int.natCast_pos.2 hpos) .positive
  rwa [zpow_zero, mul_one, Int.cast_natCast] at hnear

/-- A natural number below `2 ^ 53` is the value of a number that has a leading bit. -/
theorem exists_legal_natCast (hpos : 0 < n) (hlt : n < 2 * leadingBit) :
    ∃ mant exp, Parts.Legal mant exp ∧ leadingBit ≤ mant ∧ exp ≤ 0 ∧ (mant * 2 ^ exp : ℚ) = n := by
  have hlog : n.log2 ≤ 52 := Nat.lt_succ_iff.1 ((Nat.log2_lt hpos.ne').2 hlt)
  have hlead : leadingBit ≤ n <<< (52 - n.log2) := le_shiftLeft hpos (by omega)
  have hmant : n <<< (52 - n.log2) < 2 * leadingBit := shiftLeft_lt (by omega)
  refine ⟨_, -((52 - n.log2 : ℕ) : ℤ), ⟨hmant, by omega, by omega, .inr hlead⟩, hlead, by omega,
    ?_⟩
  rw [zpow_neg, zpow_natCast, Nat.shiftLeft_eq]
  push_cast
  field_simp

/-- The number is `10 ^ k`, and it has a leading bit. -/
def isPowerOfTen (x : Float) (k : ℕ) : Bool :=
  match Parts.of x with
  | .finite false mant exp =>
    decide (leadingBit ≤ mant) && mant * 2 ^ exp.toNat == 10 ^ k * 2 ^ (-exp).toNat
  | _ => false

theorem isPowerOfTen_powers : ∀ k : Fin 23,
    isPowerOfTen Float.exactlyRepresentablePowersOfTen[k.val] k = true := by
  decide

theorem exists_of_isPowerOfTen {k : ℕ} (h : isPowerOfTen x k = true) : ∃ mant exp,
    Parts.of x = .finite false mant exp ∧ leadingBit ≤ mant ∧ (mant * 2 ^ exp : ℚ) = 10 ^ k := by
  rw [isPowerOfTen] at h
  split at h
  next mant exp hparts =>
    rw [Bool.and_eq_true, decide_eq_true_iff, beq_iff_eq] at h
    refine ⟨mant, exp, hparts, h.1, ?_⟩
    have hvalue : (mant * 2 ^ exp.toNat : ℚ) = 10 ^ k * 2 ^ (-exp).toNat := by exact_mod_cast h.2
    rw [show exp = (exp.toNat : ℤ) - ((-exp).toNat : ℤ) by omega, zpow_sub₀ two_ne_zero,
      zpow_natCast, zpow_natCast, ← mul_div_assoc, hvalue]
    field_simp
  next => simp at h

/-! ### Scientific notation -/

theorem nearest_mul_float (hx : Parts.of x = .finite false m e)
    (hz : Parts.of z = .finite false n f) (hm : leadingBit ≤ m) (hn : 0 < n) :
    Nearest (m * 2 ^ e * (n * 2 ^ f)) (x * z) := by
  have hm' : 0 < m := Nat.lt_of_lt_of_le (by decide) hm
  have hnear := nearest_mul e f hm' hn hm
  rwa [← Parts.unpack_of_finite hx hm', ← Parts.unpack_of_finite hz hn] at hnear

theorem nearest_div_float (hx : Parts.of x = .finite false m e)
    (hz : Parts.of z = .finite false n f) (hm : 0 < m) (hn : 0 < n) :
    Nearest (m * 2 ^ e / (n * 2 ^ f)) (x / z) := by
  have hnear := nearest_div e f hm hn
  rwa [← Parts.unpack_of_finite hx hm, ← Parts.unpack_of_finite hz hn] at hnear

theorem ten_zpow_pos (e : ℤ) : (0 : ℚ) < 10 ^ e := zpow_pos (by norm_num) e

/-- Beyond the largest exponent, everything is too large. -/
theorem le_mul_ten_zpow (hm : 0 < m) (he : 1024 ≤ e) : 2 ^ (1024 : ℤ) ≤ (m * 10 ^ e : ℚ) := by
  have hone : (1 : ℚ) ≤ m := by exact_mod_cast hm
  calc (2 : ℚ) ^ (1024 : ℤ) ≤ 10 ^ (1024 : ℤ) :=
        zpow_le_zpow_left₀ (by norm_num) two_pos.le (by norm_num)
    _ ≤ 10 ^ e := zpow_le_zpow_right₀ (by norm_num) he
    _ ≤ m * 10 ^ e := le_mul_of_one_le_left (ten_zpow_pos e).le hone

/-- Below the smallest exponent for a mantissa, everything is too small. -/
theorem mul_ten_zpow_lt (he : e < -(2 ^ 11 + m.log2)) : (m * 10 ^ e : ℚ) < 2 ^ (-1075 : ℤ) := by
  have hlt : (m : ℚ) < 2 ^ ((m.log2 + 1 : ℕ) : ℤ) := by
    rw [zpow_natCast]
    exact_mod_cast Nat.lt_log2_self
  have hle : (10 : ℚ) ^ e ≤ 2 ^ e := by
    have hinv : (2 : ℚ) ^ (-e) ≤ 10 ^ (-e) :=
      zpow_le_zpow_left₀ (by omega) two_pos.le (by norm_num)
    rw [zpow_neg, zpow_neg] at hinv
    exact (inv_le_inv₀ (two_zpow_pos e) (ten_zpow_pos e)).1 hinv
  calc (m : ℚ) * 10 ^ e < 2 ^ ((m.log2 + 1 : ℕ) : ℤ) * 2 ^ e :=
        mul_lt_mul_of_lt_of_le_of_pos_of_nonneg hlt hle (ten_zpow_pos e) (two_zpow_pos _).le
    _ = 2 ^ (((m.log2 + 1 : ℕ) : ℤ) + e) := (zpow_add₀ two_ne_zero _ _).symm
    _ ≤ 2 ^ (-1075 : ℤ) := zpow_le_zpow_right₀ one_le_two (by push_cast; omega)

/-- The general case of scientific notation, in integers of any size. -/
theorem nearest_ofScientific_model (hm : 0 < m) (e : ℤ) :
    Nearest (m * 10 ^ e) (.ofModel (Float.Model.ofScientific m e)) := by
  rw [Float.Model.ofScientific, UnpackedFloat.ofScientific, dif_neg hm.ne']
  change Nearest _ (.ofModel (.pack (if e > 2 ^ 11 then _ else if e < -(2 ^ 11 + m.log2) then _ else
    if 0 ≤ e then _ else _)))
  split_ifs with hlarge hsmall hnonneg
  · exact nearest_infinity (by decide) (le_mul_ten_zpow hm (by omega))
  · exact nearest_zero (by decide) (mul_nonneg (Nat.cast_nonneg m) (ten_zpow_pos e).le)
      (mul_ten_zpow_lt hsmall)
  · have hshift : leadingBit ≤ m <<< 53 := le_shiftLeft hm (by omega)
    have hnear := nearest_mul (-53) 0 (Nat.lt_of_lt_of_le (by decide) hshift)
      (Nat.pow_pos (n := e.toNat) (show 0 < 10 by decide)) hshift
    have hvalue : ((m <<< 53 : ℕ) : ℚ) * 2 ^ (-53 : ℤ) * ((10 ^ e.toNat : ℕ) * 2 ^ (0 : ℤ)) =
        m * 10 ^ e := by
      conv_rhs => rw [← Int.toNat_of_nonneg hnonneg, zpow_natCast]
      rw [Nat.shiftLeft_eq, zpow_zero, mul_one, zpow_neg]
      push_cast
      field_simp
    rwa [hvalue] at hnear
  · have hnear := nearest_div 0 0 hm (Nat.pow_pos (n := (-e).toNat) (show 0 < 10 by decide))
    have hvalue : (m : ℚ) * 2 ^ (0 : ℤ) / ((10 ^ (-e).toNat : ℕ) * 2 ^ (0 : ℤ)) = m * 10 ^ e := by
      conv_rhs => rw [show e = -((-e).toNat : ℤ) by omega, zpow_neg, zpow_natCast]
      rw [zpow_zero, mul_one, mul_one, Nat.cast_pow, div_eq_mul_inv]
      rfl
    rwa [hvalue] at hnear

/-- A natural number and a power of ten that are both numbers, as scientific notation combines
them. -/
theorem nearest_ofScientific_short (hm : 0 < m) (hlt : m < 2 ^ 53) (s : Bool) {k : ℕ}
    (hk : k < 23) : Nearest (m * 10 ^ (if s then -k else k : ℤ))
      (if s then m.toUInt64.toFloat / Float.exactlyRepresentablePowersOfTen[k]
        else m.toUInt64.toFloat * Float.exactlyRepresentablePowersOfTen[k]) := by
  obtain ⟨m', e, hlegal, hlead, -, hvalue⟩ := exists_legal_natCast hm hlt
  obtain ⟨n', f, hpower, hlead', hvalue'⟩ := exists_of_isPowerOfTen (isPowerOfTen_powers ⟨k, hk⟩)
  have hnat : m.toUInt64.toNat = m := UInt64.toNat_ofNat_of_lt' (hlt.trans (by decide))
  have hparts : Parts.of m.toUInt64.toFloat = .finite false m' e := by
    have hnear := nearest_toFloat m.toUInt64 (by omega)
    rw [hnat, ← hvalue] at hnear
    exact hnear.of_legal hlegal
  have hm' : 0 < m' := Nat.lt_of_lt_of_le (by decide) hlead
  have hn' : 0 < n' := Nat.lt_of_lt_of_le (by decide) hlead'
  cases s with
  | false =>
    have hnear := nearest_mul_float hparts hpower hlead hn'
    rwa [hvalue, hvalue', ← zpow_natCast] at hnear
  | true =>
    have hnear := nearest_div_float hparts hpower hm' hn'
    rwa [hvalue, hvalue', div_eq_mul_inv, ← zpow_natCast, ← zpow_neg] at hnear

theorem nearest_ofScientific (hm : 0 < m) (s : Bool) (k : ℕ) :
    Nearest (m * 10 ^ (if s then -k else k : ℤ)) (Float.ofScientific m s k) := by
  rw [Float.ofScientific]
  by_cases hshort : m < 2 ^ 53 ∧ k ≤ 22
  · rw [dif_pos hshort]
    exact nearest_ofScientific_short hm hshort.1 s (by omega)
  · rw [dif_neg hshort]
    cases s with
    | false => exact nearest_ofScientific_model hm k
    | true =>
      have hneg : -(k : ℤ) = Int.negOfNat k := (Int.negOfNat_eq).symm
      rw [if_pos rfl, hneg]
      exact nearest_ofScientific_model hm (Int.negOfNat k)

theorem nearest_ofNat (n : ℕ) : Nearest n (Float.ofNat n) := by
  rcases Nat.eq_zero_or_pos n with rfl | hpos
  · exact nearest_zero (by decide) le_rfl (two_zpow_pos _)
  · have hnear := nearest_ofScientific hpos false 0
    rwa [if_neg Bool.false_ne_true, Nat.cast_zero, zpow_zero, mul_one] at hnear

end Number

end DeltaForm
