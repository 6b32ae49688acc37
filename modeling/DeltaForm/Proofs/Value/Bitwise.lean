import DeltaForm.Proofs.Number.Remainder
import DeltaForm.Value.Operate

/-!
# The bitwise operators on integers

The operands of a bitwise operator are cut to integers and these to 32-bit words. Main statement
(`Value.bitwise_modular`): the results are those of exact arithmetic on the integers, however large,
taken modulo `2 ^ 32`, and they are numbers without rounding. The two's complement form of an
integer has infinitely many bits, of which a word keeps the first 32; the last of these stands for
all that follow (`testBit_toInt`), so the operators on bits are those of the integers.
-/

namespace DeltaForm

/-! ### The bits of a word -/

namespace Word

variable {w : ℕ} {x y z : BitVec w} {m n : ℤ}

theorem eq_of_testBit_eq (h : ∀ i, m.testBit i = n.testBit i) : m = n := by
  -- of two integers of different signs one has zeros and the other ones from some bit on
  have hsigns (a b : ℕ) : a.testBit (a + b) ≠ !b.testBit (a + b) := by
    have ha : a < 2 ^ (a + b) := lt_of_le_of_lt (Nat.le_add_right a b) Nat.lt_two_pow_self
    have hb : b < 2 ^ (a + b) := lt_of_le_of_lt (Nat.le_add_left b a) Nat.lt_two_pow_self
    rw [Nat.testBit_lt_two_pow ha, Nat.testBit_lt_two_pow hb]
    decide
  cases m with
  | ofNat a =>
    cases n with
    | ofNat b => exact congrArg Int.ofNat (Nat.eq_of_testBit_eq h)
    | negSucc b => exact absurd (h (a + b)) (hsigns a b)
  | negSucc a =>
    cases n with
    | ofNat b => exact absurd (h (b + a)).symm (hsigns b a)
    | negSucc b =>
      exact congrArg Int.negSucc (Nat.eq_of_testBit_eq fun i => Bool.not_inj (h i))

theorem testBit_toInt (x : BitVec w) (i : ℕ) :
    x.toInt.testBit i = if i < w then x.getLsbD i else x.msb := by
  cases hmsb : x.msb with
  | false =>
    rw [BitVec.toInt_eq_toNat_of_msb hmsb]
    change x.toNat.testBit i = _
    rw [BitVec.testBit_toNat]
    split_ifs with hi
    · rfl
    · exact BitVec.getLsbD_of_ge x i (by omega)
  | true =>
    have hlt := x.isLt
    have hcomplement : x.toInt = Int.negSucc (2 ^ w - (x.toNat + 1)) := by
      rw [BitVec.toInt_eq_msb_cond, if_pos hmsb, Int.negSucc_eq]
      omega
    rw [hcomplement]
    change (!(2 ^ w - (x.toNat + 1)).testBit i) = _
    rw [Nat.testBit_two_pow_sub_succ hlt, BitVec.testBit_toNat]
    split_ifs with hi
    · simp [hi]
    · simp [hi]

theorem toInt_bitwise {f : Bool → Bool → Bool}
    (hbits : ∀ i < w, z.getLsbD i = f (x.getLsbD i) (y.getLsbD i)) (hmsb : z.msb = f x.msb y.msb) :
    z.toInt = Int.bitwise f x.toInt y.toInt := by
  refine eq_of_testBit_eq fun i => ?_
  rw [Int.testBit_bitwise, testBit_toInt, testBit_toInt, testBit_toInt]
  split_ifs with hi
  · exact hbits i hi
  · exact hmsb

theorem toInt_or : (x ||| y).toInt = x.toInt.lor y.toInt := by
  rw [← Int.bitwise_or]
  exact toInt_bitwise (fun i _ => BitVec.getLsbD_or) BitVec.msb_or

theorem toInt_and : (x &&& y).toInt = x.toInt.land y.toInt := by
  rw [← Int.bitwise_and]
  exact toInt_bitwise (fun i _ => BitVec.getLsbD_and) BitVec.msb_and

theorem toInt_xor : (x ^^^ y).toInt = x.toInt.xor y.toInt := by
  rw [← Int.bitwise_xor]
  exact toInt_bitwise (fun i _ => BitVec.getLsbD_xor) BitVec.msb_xor

theorem toInt_not (hw : 0 < w) : (~~~x).toInt = x.toInt.lnot := by
  refine eq_of_testBit_eq fun i => ?_
  rw [Int.testBit_lnot, testBit_toInt, testBit_toInt]
  split_ifs with hi
  · simp [hi]
  · simp [BitVec.msb_not, hw]

/-! ### The integer of a word -/

/-- `n` is the integer of at least `-2 ^ 31` and below `2 ^ 31` that `m` is modulo `2 ^ 32`. -/
def IsSigned (m n : ℤ) : Prop := -2 ^ 31 ≤ n ∧ n < 2 ^ 31 ∧ n ≡ m [ZMOD 2 ^ 32]

theorem isSigned_iff : IsSigned m n ↔ n = (BitVec.ofInt 32 m).toInt := by
  rw [BitVec.toInt_ofInt, eq_comm, Int.bmod_eq_iff (by decide), IsSigned,
    Int.modEq_comm, Int.modEq_iff_dvd]
  norm_num

theorem amount_ofInt (m : ℤ) : amount (BitVec.ofInt 32 m) = (m % 32).toNat := by
  rw [amount, BitVec.toNat_ofInt]
  omega

theorem shl_ofInt (m : ℤ) (k : ℕ) : BitVec.ofInt 32 m <<< k = BitVec.ofInt 32 (m * 2 ^ k) := by
  have hpower : BitVec.ofInt 32 (2 ^ k) = BitVec.twoPow 32 k := by
    rw [← BitVec.toNat_inj, BitVec.toNat_twoPow, show (2 ^ k : ℤ) = (2 ^ k : ℕ) by push_cast; rfl,
      BitVec.ofInt_natCast, BitVec.toNat_ofNat]
  rw [BitVec.shiftLeft_eq_mul_twoPow, BitVec.ofInt_mul, hpower]

theorem isInteger_signed (x : BitVec 32) : Number.IsInteger (signed x) x.toInt := by
  have hlow := x.le_two_mul_toInt
  have hhigh := x.two_mul_toInt_lt
  exact Number.isInteger_ofInt (by omega)

theorem isInteger_unsigned (x : BitVec 32) : Number.IsInteger (unsigned x) x.toNat :=
  Number.isInteger_ofNat (lt_trans x.isLt (by decide))

end Word

/-! ### The operators -/

namespace Value

variable {n : ℤ}

/-- The integer that a value is cut to. -/
def integer (v : Value) : ℤ := Number.integer v.toNumber

/-- By how much a value shifts another one. -/
def shift (v : Value) : ℕ := (v.integer % 32).toNat

/-- The result is the number `n`. -/
def Gives (r : Except RunFault Value) (n : ℤ) : Prop :=
  ∃ x, r = .ok (number x) ∧ Number.IsInteger x n

theorem toWord_eq (v : Value) : v.toWord = BitVec.ofInt 32 v.integer := by
  rw [toWord, Word.ofFloat_eq, integer]

theorem amount_toWord (v : Value) : Word.amount v.toWord = v.shift := by
  rw [toWord_eq, Word.amount_ofInt, shift]

theorem gives_signed {x : BitVec 32} (h : x.toInt = n) : Gives (.ok (number (Word.signed x))) n :=
  ⟨_, rfl, h ▸ Word.isInteger_signed x⟩

theorem gives_shl (a b : Value) :
    ∃ n, Word.IsSigned (a.integer * 2 ^ b.shift) n ∧ Gives (binary .shl a b) n := by
  refine ⟨_, Word.isSigned_iff.2 rfl, gives_signed ?_⟩
  rw [Word.shl, amount_toWord, toWord_eq, Word.shl_ofInt]

theorem gives_shr (a b : Value) :
    Gives (binary .shr a b) ⌊(a.toWord.toInt / 2 ^ b.shift : ℚ)⌋ := by
  refine gives_signed ?_
  rw [Word.shr, amount_toWord, BitVec.toInt_sshiftRight, Int.shiftRight_eq_div_pow,
    floor_div_two_pow, Nat.cast_pow, Nat.cast_ofNat]

theorem gives_ushr (a b : Value) :
    Gives (binary .ushr a b) ⌊((a.integer % 2 ^ 32 : ℤ) / 2 ^ b.shift : ℚ)⌋ := by
  have hword : (a.toWord.toNat : ℤ) = a.integer % 2 ^ 32 := by
    rw [toWord_eq, BitVec.toNat_ofInt]
    omega
  have hresult : ((Word.ushr a.toWord b.toWord).toNat : ℤ) =
      ⌊((a.integer % 2 ^ 32 : ℤ) / 2 ^ b.shift : ℚ)⌋ := by
    rw [Word.ushr, amount_toWord, BitVec.toNat_ushiftRight, Nat.shiftRight_eq_div_pow,
      floor_div_two_pow, ← hword, Int.natCast_ediv, Nat.cast_pow, Nat.cast_ofNat]
  exact ⟨_, rfl, hresult ▸ Word.isInteger_unsigned _⟩

/-- **The bitwise operators are exact modulo `2 ^ 32`.** The signed word of a value is the one
integer of its range that its integer is modulo `2 ^ 32`; the operators on bits are those of these
integers in two's complement. A shift to the left multiplies the whole integer and one to the right
divides and rounds down, the signed word or the unsigned one. -/
theorem bitwise_modular (a b : Value) :
    (∀ n, Word.IsSigned a.integer n ↔ n = a.toWord.toInt) ∧
    Gives (binary .bitOr a b) (a.toWord.toInt.lor b.toWord.toInt) ∧
    Gives (binary .bitAnd a b) (a.toWord.toInt.land b.toWord.toInt) ∧
    Gives (binary .bitXor a b) (a.toWord.toInt.xor b.toWord.toInt) ∧
    Gives (.ok (unary .bitNot a)) a.toWord.toInt.lnot ∧
    (∃ n, Word.IsSigned (a.integer * 2 ^ b.shift) n ∧ Gives (binary .shl a b) n) ∧
    Gives (binary .shr a b) ⌊(a.toWord.toInt / 2 ^ b.shift : ℚ)⌋ ∧
    Gives (binary .ushr a b) ⌊((a.integer % 2 ^ 32 : ℤ) / 2 ^ b.shift : ℚ)⌋ := by
  refine ⟨fun n => ?_, gives_signed Word.toInt_or, gives_signed Word.toInt_and,
    gives_signed Word.toInt_xor, gives_signed (Word.toInt_not (by decide)), gives_shl a b,
    gives_shr a b, gives_ushr a b⟩
  rw [toWord_eq]
  exact Word.isSigned_iff

example : (number 1e21).toWord.toInt = -559939584 := by decide +kernel

end Value

end DeltaForm
