import DeltaForm.Proofs.Number.Parts

/-!
# The number nearest to a rational

Around a rational `q ≥ 0` the numbers are the multiples of a power of two, `2 ^ e`, which is such
that `q` is below `2 ^ 53` of them (`GridExp`). `Nearest q x` says that `x` is the multiple nearest
to `q`, the even one where two are equally near, or infinity where that is too large. It is told by
the bits, which count the numbers up to `x`: every power of two has `2 ^ 52` of them.

There is one such number at most (`Nearest.unique`). A finite number is the nearest one to its own
value (`nearest_of_finite`), and to no rational that is further away than half a multiple
(`Nearest.abs_sub_le`).
-/

namespace DeltaForm

namespace Number

/-! ### Rounding to a natural number -/

variable {y : ℚ} {n : ℕ}

/-- The natural number nearest to a rational, the even one where two are equally near. -/
def roundEven (y : ℚ) : ℕ :=
  if 2 * (y - ⌊y⌋₊) < 1 then ⌊y⌋₊
  else if 2 * (y - ⌊y⌋₊) = 1 then ⌊y⌋₊ + ⌊y⌋₊ % 2
  else ⌊y⌋₊ + 1

theorem roundEven_natCast (n : ℕ) : roundEven n = n := by
  simp [roundEven]

theorem abs_roundEven_sub_le (hy : 0 ≤ y) : |(roundEven y : ℚ) - y| ≤ 1 / 2 := by
  have hle := Nat.floor_le hy
  have hlt := Nat.lt_floor_add_one y
  have hparity : (⌊y⌋₊ % 2 : ℕ) = 0 ∨ (⌊y⌋₊ % 2 : ℕ) = 1 := by omega
  rw [abs_le, roundEven]
  split_ifs with hbelow htie
  · constructor <;> linarith
  · rcases hparity with h | h <;> rw [h] <;> push_cast <;> constructor <;> linarith
  · have habove : 1 < 2 * (y - ⌊y⌋₊) := lt_of_le_of_ne (not_lt.1 hbelow) (Ne.symm htie)
    push_cast
    constructor <;> linarith

theorem roundEven_le (hy : 0 ≤ y) (h : y ≤ n) : roundEven y ≤ n := by
  have hnear := (abs_le.1 (abs_roundEven_sub_le hy)).2
  have hlt : (roundEven y : ℚ) < n + 1 := by linarith
  exact Nat.lt_succ_iff.1 (by exact_mod_cast hlt)

theorem le_roundEven (hy : 0 ≤ y) (h : (n : ℚ) ≤ y) : n ≤ roundEven y := by
  have hnear := (abs_le.1 (abs_roundEven_sub_le hy)).1
  have hlt : (n : ℚ) < roundEven y + 1 := by linarith
  exact Nat.lt_succ_iff.1 (by exact_mod_cast hlt)

theorem roundEven_eq_zero (hy : 0 ≤ y) (h : y < 1 / 2) : roundEven y = 0 := by
  have hnear := (abs_le.1 (abs_roundEven_sub_le hy)).2
  have hlt : (roundEven y : ℚ) < 1 := by linarith
  exact Nat.lt_one_iff.1 (by exact_mod_cast hlt)

/-! ### The grid around a rational -/

variable {q : ℚ} {e e' : ℤ} {x z : Float} {mant : ℕ} {exp : ℤ}

theorem two_zpow_pos (e : ℤ) : (0 : ℚ) < 2 ^ e := zpow_pos (by norm_num) e

theorem two_zpow_add (e : ℤ) (n : ℕ) : (2 : ℚ) ^ (e + n) = 2 ^ e * 2 ^ n := by
  rw [zpow_add₀ two_ne_zero, zpow_natCast]

/-- The numbers around `q` are the multiples of `2 ^ e`. -/
structure GridExp (q : ℚ) (e : ℤ) : Prop where
  least : -1074 ≤ e
  below : q < 2 ^ (e + 53)
  above : e = -1074 ∨ 2 ^ (e + 52) ≤ q

theorem GridExp.not_lt (h : GridExp q e) (h' : GridExp q e') : ¬ e < e' := by
  intro hlt
  rcases h'.above with rfl | habove
  · exact absurd h.least (by omega)
  · have hpow : (2 : ℚ) ^ (e + 53) ≤ 2 ^ (e' + 52) :=
      zpow_le_zpow_right₀ (by norm_num) (by omega)
    linarith [h.below]

theorem GridExp.unique (h : GridExp q e) (h' : GridExp q e') : e = e' := by
  have h₁ := h.not_lt h'
  have h₂ := h'.not_lt h
  omega

theorem exists_gridExp (q : ℚ) : ∃ e, GridExp q e := by
  by_cases hsmall : q < 2 ^ (-1021 : ℤ)
  · exact ⟨-1074, le_rfl, hsmall, .inl rfl⟩
  · rw [not_lt] at hsmall
    have hpos : 0 < q := lt_of_lt_of_le (two_zpow_pos _) hsmall
    have hlog : -1021 ≤ Int.log 2 q :=
      (Int.zpow_le_iff_le_log one_lt_two hpos).1 (by simpa using hsmall)
    refine ⟨Int.log 2 q - 52, by omega, ?_, .inr ?_⟩
    · have := Int.lt_zpow_succ_log_self one_lt_two q
      rwa [show Int.log 2 q - 52 + 53 = Int.log 2 q + 1 by ring]
    · have := Int.zpow_log_le_self one_lt_two hpos
      rwa [sub_add_cancel]

theorem GridExp.div_lt (h : GridExp q e) : q / 2 ^ e < 2 ^ 53 := by
  rw [div_lt_iff₀ (two_zpow_pos e), mul_comm, ← two_zpow_add]
  exact h.below

theorem GridExp.le_div (h : GridExp q e) (he : e ≠ -1074) : 2 ^ 52 ≤ q / 2 ^ e := by
  rw [le_div_iff₀ (two_zpow_pos e), mul_comm, ← two_zpow_add]
  exact h.above.resolve_left he

/-- The multiple nearest to `q` is one that a number can have. -/
theorem GridExp.roundEven_bounds (h : GridExp q e) (hq : 0 ≤ q) :
    roundEven (q / 2 ^ e) ≤ 2 * Parts.leadingBit ∧
      (e = -1074 ∨ Parts.leadingBit ≤ roundEven (q / 2 ^ e)) := by
  have hy : 0 ≤ q / 2 ^ e := div_nonneg hq (two_zpow_pos e).le
  refine ⟨roundEven_le hy ?_, or_iff_not_imp_left.2 fun he => le_roundEven hy ?_⟩
  · exact_mod_cast h.div_lt.le
  · exact_mod_cast h.le_div he

/-! ### The nearest number -/

/-- The number nearest to a rational of at least zero. -/
def Nearest (q : ℚ) (x : Float) : Prop :=
  ∃ e, GridExp q e ∧ x.toBits.toNat =
    min ((e + 1074).toNat * Parts.leadingBit + roundEven (q / 2 ^ e)) infinityBits

theorem Nearest.unique (h : Nearest q x) (h' : Nearest q z) : x = z := by
  obtain ⟨e, he, hx⟩ := h
  obtain ⟨e', he', hz⟩ := h'
  obtain rfl := he.unique he'
  exact eq_of_toBits (hx.trans hz.symm)

theorem Nearest.parts (h : Nearest q x) :
    (∃ mant exp, Parts.of x = .finite false mant exp) ∨ Parts.of x = .infinite false := by
  obtain ⟨e, -, hx⟩ := h
  exact (Parts.of_of_toBits_le (hx ▸ min_le_right _ _)).imp_right And.left

theorem Nearest.ne_nan (h : Nearest q x) : x ≠ Float.nan := by
  rintro rfl
  rcases h.parts with ⟨mant, exp, hparts⟩ | hparts <;> cases hparts

theorem Nearest.ne_neg_zero (h : Nearest q x) : x ≠ -0 := by
  rintro rfl
  rcases h.parts with ⟨mant, exp, hparts⟩ | hparts <;> cases hparts

theorem gridExp_of_legal (h : Parts.Legal mant exp) : GridExp (mant * 2 ^ exp) exp := by
  have hpow := two_zpow_pos exp
  refine ⟨h.le_exp, ?_, h.normal.imp_right fun hnormal => ?_⟩
  · have hmant : (mant : ℚ) < 2 ^ 53 := by exact_mod_cast h.mant_lt
    rw [show (53 : ℤ) = (53 : ℕ) by rfl, two_zpow_add, mul_comm]
    exact mul_lt_mul_of_pos_left hmant hpow
  · have hmant : (2 : ℚ) ^ 52 ≤ mant := by exact_mod_cast hnormal
    rw [show (52 : ℤ) = (52 : ℕ) by rfl, two_zpow_add, mul_comm]
    exact mul_le_mul_of_nonneg_right hmant hpow.le

/-- The bits of the number nearest to a value that a finite number can have. -/
theorem min_bits_of_legal (h : Parts.Legal mant exp) :
    min ((exp + 1074).toNat * Parts.leadingBit + roundEven ((mant * 2 ^ exp : ℚ) / 2 ^ exp))
      infinityBits = (exp + 1074).toNat * Parts.leadingBit + mant := by
  obtain ⟨hlt, hleast, hmost, -⟩ := h
  rw [mul_div_cancel_right₀ _ (two_zpow_pos exp).ne', roundEven_natCast, min_eq_left]
  rw [infinityBits, Parts.leadingBit] at *
  omega

/-- A finite number is the nearest one to its value. -/
theorem nearest_of_finite (h : Parts.of x = .finite false mant exp) :
    Nearest (mant * 2 ^ exp) x := by
  obtain ⟨hlegal, hbits⟩ := Parts.of_eq_finite h
  refine ⟨exp, gridExp_of_legal hlegal, ?_⟩
  rw [min_bits_of_legal hlegal, hbits]
  exact Nat.zero_add _

/-- What is nearest to a value that a finite number can have has that value. -/
theorem Nearest.of_legal (h : Nearest (mant * 2 ^ exp) x) (hlegal : Parts.Legal mant exp) :
    Parts.of x = .finite false mant exp := by
  obtain ⟨e, he, hbits⟩ := h
  obtain rfl := he.unique (gridExp_of_legal hlegal)
  refine Parts.of_of_toBits hlegal ?_
  rw [hbits, min_bits_of_legal hlegal]
  exact (Nat.zero_add _).symm

theorem nearest_infinity (h : Parts.of x = .infinite false) (hq : 2 ^ (1024 : ℤ) ≤ q) :
    Nearest q x := by
  have hpos : 0 ≤ q := (two_zpow_pos _).le.trans hq
  obtain ⟨e, he⟩ := exists_gridExp q
  have hexp : 972 ≤ e := by
    have := (zpow_lt_zpow_iff_right₀ (one_lt_two (α := ℚ))).1 (hq.trans_lt he.below)
    omega
  have hround := (he.roundEven_bounds hpos).2.resolve_left (by omega)
  refine ⟨e, he, ?_⟩
  rw [Parts.of_eq_infinite h, min_eq_right]
  · exact Nat.zero_add _
  · rw [infinityBits, Parts.leadingBit] at *
    omega

theorem nearest_zero (hx : x.toBits.toNat = 0) (hq : 0 ≤ q) (h : q < 2 ^ (-1075 : ℤ)) :
    Nearest q x := by
  have hhalf : (2 : ℚ) ^ (-1075 : ℤ) = 1 / 2 * 2 ^ (-1074 : ℤ) := by
    rw [show (-1074 : ℤ) = -1075 + (1 : ℕ) by rfl, two_zpow_add]
    ring
  have hround : roundEven (q / 2 ^ (-1074 : ℤ)) = 0 := by
    refine roundEven_eq_zero (div_nonneg hq (two_zpow_pos _).le) ?_
    rwa [div_lt_iff₀ (two_zpow_pos _), ← hhalf]
  have hbelow : q < 2 ^ (-1074 + 53 : ℤ) :=
    h.trans_le (zpow_le_zpow_right₀ one_le_two (by norm_num))
  refine ⟨-1074, ⟨le_rfl, hbelow, .inl rfl⟩, ?_⟩
  rw [hround, hx]
  rfl

/-- The nearest number is half a multiple away at most. -/
theorem Nearest.abs_sub_le (h : Nearest q x) (hq : 0 ≤ q)
    (hx : Parts.of x = .finite false mant exp) : |q - mant * 2 ^ exp| ≤ 2 ^ exp / 2 := by
  obtain ⟨e, he, hbits⟩ := h
  obtain ⟨hlegal, hbits'⟩ := Parts.of_eq_finite hx
  have hround := he.roundEven_bounds hq
  have hnear := abs_roundEven_sub_le (div_nonneg hq (two_zpow_pos e).le)
  generalize roundEven (q / 2 ^ e) = r at hbits hround hnear
  -- `r` multiples of `2 ^ e` are what `x` is, though `2 ^ 53` of them are written as half as many
  have hvalue : (mant : ℚ) * 2 ^ exp = r * 2 ^ e ∧ e ≤ exp := by
    have hmant := hlegal.mant_lt
    have hnormal := hlegal.normal
    have hleast := hlegal.le_exp
    have hmost := hlegal.exp_le
    have hleast' := he.least
    rw [Parts.signBit, if_neg Bool.false_ne_true, Nat.zero_add] at hbits'
    rw [hbits'] at hbits
    have hcases : exp = e ∧ mant = r ∨ exp = e + 1 ∧ r = 2 * mant := by
      simp only [infinityBits, Parts.leadingBit] at *
      omega
    rcases hcases with ⟨rfl, rfl⟩ | ⟨rfl, rfl⟩
    · exact ⟨rfl, le_rfl⟩
    · refine ⟨?_, by omega⟩
      rw [zpow_add_one₀ two_ne_zero]
      push_cast
      ring
  have hpow := two_zpow_pos e
  have hdist : |q - r * 2 ^ e| = |(r : ℚ) - q / 2 ^ e| * 2 ^ e := by
    rw [← abs_of_pos hpow, ← abs_mul, abs_of_pos hpow, sub_mul, div_mul_cancel₀ _ hpow.ne',
      abs_sub_comm]
  have hmono : (2 : ℚ) ^ e ≤ 2 ^ exp := zpow_le_zpow_right₀ one_le_two hvalue.2
  calc |q - mant * 2 ^ exp| = |(r : ℚ) - q / 2 ^ e| * 2 ^ e := by rw [hvalue.1, hdist]
    _ ≤ 1 / 2 * 2 ^ e := mul_le_mul_of_nonneg_right hnear hpow.le
    _ ≤ 2 ^ exp / 2 := by linarith

end Number

end DeltaForm
