import DeltaForm.Number.Layout
import DeltaForm.Proofs.Number.Rounding

/-!
# The values of decimals

A decimal is read as the number nearest to its value (`Decimal.nearest_toFloat`), so two decimals of
one value are the same number. The shortest decimal of a number reads back as the number
(`Decimal.nearest_shortest`): whatever grid it was found on, it was compared with the number, and
taking zeros off its end keeps its value.

A natural number below `2 ^ 53` is written with its own digits (`Layout.write_ofNat`): on a grid of
integers nothing else is nearest to it, and the grid of all its digits has it.
-/

namespace DeltaForm

open Number

namespace Decimal

variable {d : Decimal} {x : Float} {mant num den n count fuel : ℕ} {exp : ℤ}

/-- The value of a decimal. -/
def value (d : Decimal) : ℚ := d.digits * 10 ^ d.exp

/-! ### Reading -/

theorem width_pos (n : ℕ) : 0 < width n := Nat.length_toDigits_pos

theorem lt_pow_width (n : ℕ) : n < 10 ^ width n :=
  (Nat.length_toDigits_le_iff (by decide) (width_pos n)).1 le_rfl

theorem pow_width_le (hn : 0 < n) : 10 ^ (width n - 1) ≤ n := by
  by_contra hlt
  rcases Nat.eq_zero_or_pos (width n - 1) with hzero | hpos
  · rw [hzero] at hlt
    omega
  · have hle := (Nat.length_toDigits_le_iff (b := 10) (by decide) hpos).2 (not_le.1 hlt)
    change width n ≤ _ at hle
    omega

theorem value_nonneg (d : Decimal) : 0 ≤ d.value :=
  mul_nonneg (Nat.cast_nonneg _) (ten_zpow_pos _).le

theorem value_lt (d : Decimal) : d.value < 10 ^ (d.exp + width d.digits) := by
  have hlt : (d.digits : ℚ) < 10 ^ width d.digits := by exact_mod_cast lt_pow_width d.digits
  rw [value, zpow_add₀ (by norm_num), zpow_natCast, mul_comm]
  exact mul_lt_mul_of_pos_left hlt (ten_zpow_pos _)

theorem le_value (h : 0 < d.digits) : 10 ^ (d.exp + width d.digits - 1) ≤ d.value := by
  have hle : (10 : ℚ) ^ (width d.digits - 1) ≤ d.digits := by exact_mod_cast pow_width_le h
  have hexp : d.exp + width d.digits - 1 = d.exp + ((width d.digits - 1 : ℕ) : ℤ) := by
    have := width_pos d.digits
    omega
  rw [value, hexp, zpow_add₀ (by norm_num), zpow_natCast, mul_comm]
  exact mul_le_mul_of_nonneg_right hle (ten_zpow_pos _).le

theorem two_zpow_le_ten_zpow : (2 : ℚ) ^ (3 * 400 : ℤ) ≤ 10 ^ (400 : ℤ) := by
  rw [zpow_mul]
  exact zpow_le_zpow_left₀ (by norm_num) (by norm_num) (by norm_num)

/-- Beyond the two bounds of the scale, the nearest numbers are infinity and zero. -/
theorem nearest_toFloat (d : Decimal) : Nearest d.value d.toFloat := by
  rw [toFloat]
  split_ifs with hzero hlarge hsmall
  · exact nearest_zero (by decide) d.value_nonneg (by simp [value, hzero])
  · refine nearest_infinity (by decide) ?_
    calc (2 : ℚ) ^ (1024 : ℤ) ≤ 2 ^ (3 * 400 : ℤ) := zpow_le_zpow_right₀ one_le_two (by norm_num)
      _ ≤ 10 ^ (400 : ℤ) := two_zpow_le_ten_zpow
      _ ≤ 10 ^ (d.exp + width d.digits - 1) := zpow_le_zpow_right₀ (by norm_num) (by omega)
      _ ≤ d.value := le_value (Nat.pos_of_ne_zero hzero)
  · refine nearest_zero (by decide) d.value_nonneg ?_
    calc d.value < 10 ^ (d.exp + width d.digits) := d.value_lt
      _ ≤ 10 ^ (-400 : ℤ) := zpow_le_zpow_right₀ (by norm_num) (by omega)
      _ = (10 ^ (400 : ℤ))⁻¹ := zpow_neg _ _
      _ ≤ (2 ^ (3 * 400 : ℤ))⁻¹ := inv_anti₀ (two_zpow_pos _) two_zpow_le_ten_zpow
      _ = 2 ^ (-(3 * 400) : ℤ) := (zpow_neg _ _).symm
      _ ≤ 2 ^ (-1075 : ℤ) := zpow_le_zpow_right₀ one_le_two (by norm_num)
  · have hnear := nearest_ofScientific (Nat.pos_of_ne_zero hzero) (d.exp < 0) d.exp.natAbs
    have hexp : (if decide (d.exp < 0) then -(d.exp.natAbs : ℤ) else d.exp.natAbs) = d.exp := by
      simp only [decide_eq_true_eq]
      split_ifs <;> omega
    rwa [hexp] at hnear

theorem toFloat_eq (h : Nearest d.value x) : d.toFloat = x := d.nearest_toFloat.unique h

/-! ### The shortest decimal -/

@[simp] theorem value_strip (fuel : ℕ) (d : Decimal) : (strip fuel d).value = d.value := by
  induction fuel generalizing d with
  | zero => rfl
  | succ fuel ih =>
    rw [strip]
    split_ifs with hzero
    · have hdigits : (d.digits : ℚ) = (d.digits / 10 : ℕ) * 10 := by
        exact_mod_cast (Nat.div_mul_cancel (Nat.dvd_of_mod_eq_zero hzero)).symm
      rw [ih, value, value, hdigits, zpow_add₀ (by norm_num), zpow_one]
      ring
    · rfl

theorem exp_le_strip (fuel : ℕ) (d : Decimal) : d.exp ≤ (strip fuel d).exp := by
  induction fuel generalizing d with
  | zero => rfl
  | succ fuel ih =>
    rw [strip]
    split_ifs
    · exact (Int.le_add_one le_rfl).trans (ih _)
    · rfl

theorem value_inFull (mant : ℕ) (exp : ℤ) : (inFull mant exp).value = mant * 2 ^ exp := by
  rw [inFull]
  split_ifs with hexp
  · obtain ⟨k, rfl⟩ := Int.eq_ofNat_of_zero_le hexp
    simp [value, Nat.shiftLeft_eq]
  · obtain ⟨k, rfl⟩ : ∃ k : ℕ, exp = -k := ⟨(-exp).toNat, by omega⟩
    have hten : (10 : ℚ) ^ k = 5 ^ k * 2 ^ k := by
      rw [← mul_pow]
      norm_num
    simp only [value, neg_neg, Int.toNat_natCast, zpow_neg, zpow_natCast, hten, Nat.pow_eq]
    push_cast
    field_simp

/-- What a search through the grids finds is nearest to a number that is not zero. -/
theorem nearest_of_onGrid? (hx : Parts.of x = .finite false mant exp) (hmant : 0 < mant)
    (h : onGrid? x num den count = some d) : Nearest d.value x := by
  have hequal : (d.toFloat == x) = true := by
    simp only [onGrid?] at h
    split_ifs at h with hup hdown
    · cases h
      exact (Bool.and_eq_true _ _ ▸ hup).1
    · cases h
      exact hdown
  obtain ⟨-, -, hsame | ⟨-, rfl⟩ | ⟨-, rfl⟩⟩ := Float.beq_iff_ne_nan_and_eq.1 hequal
  · exact hsame ▸ nearest_toFloat d
  · -- the parts of the two zeros are known
    cases hx
  · cases hx
    exact absurd hmant (lt_irrefl 0)

theorem nearest_shortest (hx : Parts.of x = .finite false mant exp) (hmant : 0 < mant) :
    Nearest (shortest x mant exp).value x := by
  rw [shortest]
  split
  next d hd =>
    obtain ⟨count, -, hcount⟩ := List.exists_of_findSome?_eq_some hd
    rw [value_strip]
    exact nearest_of_onGrid? hx hmant hcount
  next =>
    rw [value_inFull]
    exact nearest_of_finite hx

/-! ### Natural numbers -/

theorem magnitude_mul (hn : 0 < n) (hden : 0 < den) : magnitude (n * den) den = width n - 1 := by
  rw [magnitude, if_pos (Nat.le_mul_of_pos_left den hn), Nat.mul_div_cancel n hden]

theorem exp_of_onGrid? (h : onGrid? x num den count = some d) :
    d.exp = magnitude num den - count + 1 := by
  simp only [onGrid?] at h
  split_ifs at h <;> cases h <;> rfl

/-- The grid of all digits of a natural number holds the number itself. -/
theorem onGrid?_width (hn : 0 < n) (hden : 0 < den)
    (hx : ((⟨n, 0⟩ : Decimal).toFloat == x) = true) :
    onGrid? x (n * den) den (width n) ≠ none := by
  have hunit : magnitude (n * den) den - width n + 1 = 0 := by
    rw [magnitude_mul hn hden]
    ring
  simp only [onGrid?, hunit, neg_zero, Int.toNat_zero, Nat.pow_eq, pow_zero, mul_one,
    Nat.mul_div_cancel n hden, hx]
  split_ifs <;> simp

/-- The first hit of a search through numbers in order is not after any other. -/
theorem le_of_findSome?_range' {α : Type*} {f : ℕ → Option α} {a : α} {s k c : ℕ}
    (h : (List.range' s k).findSome? f = some a) (hc : c ∈ List.range' s k) (hf : f c ≠ none) :
    ∃ i ≤ c, f i = some a := by
  obtain ⟨before, i, after, hsplit, hi, hnone⟩ := List.findSome?_eq_some_iff.1 h
  have hsorted := hsplit ▸ List.pairwise_lt_range' (s := s) (n := k)
  rw [hsplit, List.mem_append, List.mem_cons] at hc
  refine ⟨i, ?_, hi⟩
  rcases hc with hc | rfl | hc
  · exact absurd (hnone c hc) hf
  · exact le_rfl
  · rw [List.pairwise_append, List.pairwise_cons] at hsorted
    exact (hsorted.2.1.1 c hc).le

/-- On a grid of integers, only the number itself is nearest to a small natural number. -/
theorem value_eq_of_nearest (hexp : 0 ≤ d.exp) (h : Nearest d.value x)
    (hx : Parts.of x = .finite false mant exp) (hle : exp ≤ 0) (hn : (mant * 2 ^ exp : ℚ) = n) :
    d.value = n := by
  obtain ⟨k, hk⟩ := Int.eq_ofNat_of_zero_le hexp
  have hvalue : d.value = (d.digits * 10 ^ k : ℕ) := by
    rw [value, hk, zpow_natCast]
    push_cast
    rfl
  have hnear := h.abs_sub_le d.value_nonneg hx
  have hpow : (2 : ℚ) ^ exp ≤ 1 := zpow_le_one_of_nonpos₀ one_le_two hle
  rw [hn, hvalue] at hnear
  rw [hvalue]
  generalize d.digits * 10 ^ k = v at hnear
  have hlt : |(v : ℚ) - n| < 1 := by linarith
  have hlt' : |(v : ℤ) - n| < 1 := by exact_mod_cast hlt
  rw [Int.abs_lt_one_iff, sub_eq_zero] at hlt'
  exact_mod_cast hlt'

theorem eq_mul_of_value (hle : exp ≤ 0) (hn : (mant * 2 ^ exp : ℚ) = n) :
    mant = n * 1 <<< (-exp).toNat := by
  obtain ⟨k, rfl⟩ : ∃ k : ℕ, exp = -k := ⟨(-exp).toNat, by omega⟩
  rw [zpow_neg, zpow_natCast, ← div_eq_mul_inv, div_eq_iff (by positivity)] at hn
  rw [neg_neg, Int.toNat_natCast, Nat.one_shiftLeft]
  exact_mod_cast hn

theorem width_mem_range' (h : n < 2 * Parts.leadingBit) : width n ∈ List.range' 1 17 := by
  have hlt : n < 10 ^ 17 := h.trans (by decide)
  have hwidth := (Nat.length_toDigits_le_iff (b := 10) (by decide) (by decide)).2 hlt
  rw [List.mem_range'_1]
  exact ⟨width_pos n, Nat.lt_succ_of_le hwidth⟩

/-- The shortest decimal of a natural number has no fraction and is the number. -/
theorem shortest_natCast (hx : Parts.of x = .finite false mant exp) (hmant : 0 < mant)
    (hle : exp ≤ 0) (hn : (mant * 2 ^ exp : ℚ) = n) :
    0 ≤ (shortest x mant exp).exp ∧ (shortest x mant exp).value = n := by
  have hnear : Nearest n x := hn ▸ nearest_of_finite hx
  have hmul := eq_mul_of_value hle hn
  rw [shortest, Int.toNat_of_nonpos hle, Nat.shiftLeft_zero]
  have hden : 0 < 1 <<< (-exp).toNat := Nat.pos_of_mul_pos_left (hmul ▸ hmant)
  have hpos : 0 < n := Nat.pos_of_mul_pos_right (hmul ▸ hmant)
  have hwidth : width n ∈ List.range' 1 17 := width_mem_range' <|
    calc n ≤ mant := hmul ▸ Nat.le_mul_of_pos_right n hden
      _ < 2 * Parts.leadingBit := (Parts.of_eq_finite hx).1.mant_lt
  have hself : ((⟨n, 0⟩ : Decimal).toFloat == x) = true := by
    have hvalue : value ⟨n, 0⟩ = n := by simp [value]
    rw [toFloat_eq (hvalue ▸ hnear), Float.beq_self_iff]
    exact hnear.ne_nan
  have hhit := onGrid?_width hpos hden hself
  simp only [← hmul] at hhit ⊢
  split
  next d hd =>
    obtain ⟨count, hcount, hfound⟩ := le_of_findSome?_range' hd hwidth hhit
    have hexp := exp_of_onGrid? hfound
    rw [hmul, magnitude_mul hpos hden] at hexp
    have hexp' : 0 ≤ d.exp := by omega
    rw [value_strip]
    refine ⟨hexp'.trans (exp_le_strip 17 d), ?_⟩
    exact value_eq_of_nearest hexp' (nearest_of_onGrid? hx hmant hfound) hx hle hn
  next hnone => exact absurd (List.findSome?_eq_none_iff.1 hnone _ hwidth) hhit

end Decimal

/-! ### Texts -/

theorem Layout.write_finite {x : Float} {mant : ℕ} {exp : ℤ}
    (hx : Parts.of x = .finite false mant exp) : Layout.plain.write x =
      Layout.positional false (if mant = 0 then ⟨0, 0⟩ else Decimal.shortest x mant exp) := by
  have hwrite : Layout.plain.write x = Layout.plain.magnitude x mant exp := by
    rw [Layout.write, hx]
    rfl
  simp only [hwrite, Layout.magnitude]
  split_ifs with hzero hscientific
  · rfl
  · cases hscientific
  · rfl

/-- A finite number without a minus sign is written as a decimal that it is nearest to. -/
theorem Layout.write_eq_positional {x : Float} {mant : ℕ} {exp : ℤ}
    (hx : Parts.of x = .finite false mant exp) :
    ∃ d : Decimal, Layout.plain.write x = Layout.positional false d ∧ Nearest d.value x := by
  refine ⟨_, Layout.write_finite hx, ?_⟩
  split_ifs with hzero
  · have hnear := nearest_of_finite hx
    rw [hzero, Nat.cast_zero, zero_mul] at hnear
    rwa [Decimal.value, Nat.cast_zero, zero_mul]
  · exact Decimal.nearest_shortest hx (Nat.pos_of_ne_zero hzero)

theorem toDigits_mul_pow {n : ℕ} (hn : 0 < n) (k : ℕ) :
    Nat.toDigits 10 (n * 10 ^ k) = Nat.toDigits 10 n ++ List.replicate k '0' := by
  induction k with
  | zero => simp
  | succ k ih =>
    have hpos : 0 < n * 10 ^ k := Nat.mul_pos hn (Nat.pow_pos (by decide))
    have hten : n * 10 ^ (k + 1) = 10 * (n * 10 ^ k) + 0 := by ring
    rw [hten, ← Nat.toDigits_append_toDigits (by decide) hpos (by decide), ih,
      List.replicate_succ', List.append_assoc]
    rfl

/-- A natural number below `2 ^ 53` is written with its own digits. -/
theorem Layout.write_ofNat {n : ℕ} (h : n < 2 * Parts.leadingBit) :
    Layout.plain.write (Float.ofNat n) = Nat.toDigits 10 n := by
  rcases Nat.eq_zero_or_pos n with rfl | hn
  · decide
  obtain ⟨mant, exp, hlegal, hlead, hle, hvalue⟩ := exists_legal_natCast hn h
  have hparts : Parts.of (Float.ofNat n) = .finite false mant exp :=
    (hvalue ▸ nearest_ofNat n).of_legal hlegal
  have hmant : 0 < mant := Nat.lt_of_lt_of_le (by decide) hlead
  obtain ⟨hexp, hshortest⟩ := Decimal.shortest_natCast hparts hmant hle hvalue
  rw [Layout.write_finite hparts, if_neg hmant.ne']
  generalize Decimal.shortest (Float.ofNat n) mant exp = d at hexp hshortest
  have hdigits : d.digits * 10 ^ d.exp.toNat = n := by
    rw [Decimal.value, ← Int.toNat_of_nonneg hexp, zpow_natCast] at hshortest
    exact_mod_cast hshortest
  have hpos : 0 < d.digits := by
    by_contra hzero
    rw [Nat.eq_zero_of_not_pos hzero, Nat.zero_mul] at hdigits
    omega
  rw [Layout.positional, if_pos hexp, if_neg Bool.false_ne_true, List.append_nil,
    ← toDigits_mul_pow hpos, hdigits]

end DeltaForm
