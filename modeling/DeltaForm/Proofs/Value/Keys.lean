import DeltaForm.Proofs.Lexer.Literals
import DeltaForm.Proofs.Number.Decimal
import DeltaForm.Value.Equality
import DeltaForm.Value.Property

/-!
# Keys of array items

A key is turned into an index by reading digits, and an index into a key by writing a number. The
two are not inverse to each other: an index is also read from its digits with zeros or a plus sign
before them (`index?_eq_some_iff`), and zero is also written `-0` (`Value.isKeyOf_iff`).
`Value.reachesByKey_iff` says that these are the only keys at which items are not reached by the
keys of their indices, and by nothing else.
-/

namespace DeltaForm

open Number Lexer

variable {key : String} {i n : ℕ} {ds : List Char}

/-! ### Indices as texts -/

/-- The digits of an index, with zeros or a plus sign and zeros before them. -/
def IsPadded (key : String) (i : ℕ) : Prop :=
  ∃ sign ∈ ["", "+"], ∃ zeros, key = sign ++ String.ofList (List.replicate zeros '0') ++ toString i

theorem digitChar_digitValue {c : Char} (h : c.isDigit = true) :
    digitValue c < 10 ∧ Nat.digitChar (digitValue c) = c := by
  have hbounds := Char.isDigit_iff_toNat.1 h
  change 48 ≤ c.toNat ∧ c.toNat ≤ 57 at hbounds
  have hvalue : digitValue c = c.toNat - 48 := by rw [digitValue, if_pos h]
  have hlt : digitValue c < 10 := by omega
  refine ⟨hlt, Char.toNat_inj.1 ?_⟩
  rw [Nat.toNat_digitChar_of_lt_ten hlt]
  omega

theorem digitsValue_cons (c : Char) (ds : List Char) :
    digitsValue 10 (c :: ds) = digitValue c * 10 ^ ds.length + digitsValue 10 ds := by
  have hsingle : digitsValue 10 [c] = digitValue c := Nat.zero_add _
  rw [← List.singleton_append, digitsValue_append, hsingle]

/-- Digits after the digits of a positive number. -/
theorem toDigits_append (hn : 0 < n) (hds : areDigits ds = true) :
    Nat.toDigits 10 n ++ ds = Nat.toDigits 10 (n * 10 ^ ds.length + digitsValue 10 ds) := by
  induction ds generalizing n with
  | nil => simp [digitsValue]
  | cons d ds ih =>
    rw [areDigits, List.all_cons, Bool.and_eq_true] at hds
    obtain ⟨hlt, hchar⟩ := digitChar_digitValue hds.1
    have hstep := Nat.toDigits_append_toDigits (b := 10) (by decide) hn hlt
    rw [Nat.toDigits_of_lt_base hlt, hchar] at hstep
    have hvalue : (10 * n + digitValue d) * 10 ^ ds.length + digitsValue 10 ds =
        n * 10 ^ (d :: ds).length + digitsValue 10 (d :: ds) := by
      rw [digitsValue_cons, List.length_cons]
      ring
    calc Nat.toDigits 10 n ++ d :: ds = Nat.toDigits 10 n ++ [d] ++ ds := by simp
      _ = Nat.toDigits 10 (10 * n + digitValue d) ++ ds := by rw [hstep]
      _ = _ := by rw [ih (by omega) hds.2, hvalue]

/-- A row of digits is that of its value with zeros before it. -/
theorem exists_zeros (hds : areDigits ds = true) (hne : ds ≠ []) :
    ∃ zeros, ds = List.replicate zeros '0' ++ Nat.toDigits 10 (digitsValue 10 ds) := by
  induction ds with
  | nil => exact absurd rfl hne
  | cons d ds ih =>
    rw [areDigits, List.all_cons, Bool.and_eq_true] at hds
    obtain ⟨hlt, hchar⟩ := digitChar_digitValue hds.1
    have hvalue := digitsValue_cons d ds
    rcases Nat.eq_zero_or_pos (digitValue d) with hzero | hpos
    · have hd : d = '0' := by
        rw [← hchar, hzero]
        rfl
      rw [hzero, Nat.zero_mul, Nat.zero_add] at hvalue
      rw [hvalue, hd]
      by_cases hnil : ds = []
      · subst hnil
        exact ⟨0, rfl⟩
      · obtain ⟨zeros, hzeros⟩ := ih hds.2 hnil
        refine ⟨zeros + 1, ?_⟩
        rw [List.replicate_succ, List.cons_append, ← hzeros]
    · refine ⟨0, ?_⟩
      have happend := toDigits_append hpos hds.2
      rw [Nat.toDigits_of_lt_base hlt, hchar, ← hvalue] at happend
      exact happend

/-- The rows of digits with a given value. -/
theorem digits_iff : (!ds.isEmpty && ds.all Char.isDigit) = true ∧ digitsValue 10 ds = i ↔
    ∃ zeros, ds = List.replicate zeros '0' ++ Nat.toDigits 10 i := by
  constructor
  · rintro ⟨hds, rfl⟩
    rw [Bool.and_eq_true] at hds
    exact exists_zeros hds.2 (by simpa using hds.1)
  · rintro ⟨zeros, rfl⟩
    have hdigits := areDigits_toDigits i
    have hzeros := areDigits_replicate zeros
    rw [areDigits] at hdigits hzeros
    refine ⟨by simp [hdigits, hzeros, Nat.toDigits_ne_nil], ?_⟩
    rw [digitsValue_append, digitsValue_zeros, Nat.zero_mul, Nat.zero_add,
      digitsValue_toDigits 10 i (by decide) (by decide)]

theorem isPadded_iff : IsPadded key i ↔
    (∃ zeros, key.toList = List.replicate zeros '0' ++ Nat.toDigits 10 i) ∨
      ∃ zeros, key.toList = '+' :: (List.replicate zeros '0' ++ Nat.toDigits 10 i) := by
  have hlist (sign : String) (zeros : ℕ) :
      key = sign ++ String.ofList (List.replicate zeros '0') ++ toString i ↔
        key.toList = sign.toList ++ (List.replicate zeros '0' ++ Nat.toDigits 10 i) := by
    rw [← String.toList_inj, String.toList_append, String.toList_append, String.toList_ofList,
      Nat.toString_eq_repr, Nat.toList_repr, List.append_assoc]
  simp only [IsPadded, hlist, List.mem_cons, List.not_mem_nil, or_false, exists_eq_or_imp,
    exists_eq_left]
  rfl

/-- What is read as an index: its digits, with zeros or a plus sign and zeros before them. -/
theorem index?_eq_some_iff : index? key = some i ↔ IsPadded key i := by
  have hplus {ds : List Char} (zeros : ℕ) :
      '+' :: ds ≠ List.replicate zeros '0' ++ Nat.toDigits 10 i := by
    intro h
    have hdigits := (digits_iff.2 ⟨zeros, h⟩).1
    simp at hdigits
  simp only [isPadded_iff, index?, Option.ite_none_right_eq_some, Option.some.injEq, digits_iff]
  split
  next ds hkey => simp [hkey, hplus]
  next ds hkey =>
    refine ⟨.inl, fun h => h.resolve_right ?_⟩
    rintro ⟨zeros, hzeros⟩
    exact hkey _ hzeros

/-! ### Keys of numbers -/

namespace Value

/-- The key is that of a number that is strictly equal to an index. -/
def IsKeyOf (key : String) (i : ℕ) : Prop :=
  ∃ x : Float, strictEquals (number x) (number (Float.ofNat i)) = true ∧ text (number x) = key

theorem text_ofNat (h : i < 2 ^ 53) : text (number (Float.ofNat i)) = toString i := by
  rw [text, Number.text, Layout.write_ofNat h, Nat.toString_eq_repr, Nat.repr_eq_ofList_toDigits]

theorem eq_zero_of_ofNat_eq_zero (h : Float.ofNat i = 0) : i = 0 := by
  have hparts : Parts.of (Float.ofNat i) = .finite false 0 (-1074) := by
    rw [h]
    decide
  have hle := (nearest_ofNat i).abs_sub_le (Nat.cast_nonneg i) hparts
  have hpow : (2 : ℚ) ^ (-1074 : ℤ) ≤ 1 := zpow_le_one_of_nonpos₀ one_le_two (by norm_num)
  rw [Nat.cast_zero, zero_mul, sub_zero, Nat.abs_cast] at hle
  have hlt : (i : ℚ) < 1 := by linarith
  exact Nat.lt_one_iff.1 (by exact_mod_cast hlt)

/-- The numbers below `2 ^ 53` have the keys one expects, and zero has a second one. -/
theorem isKeyOf_iff (h : i < 2 ^ 53) :
    IsKeyOf key i ↔ key = toString i ∨ i = 0 ∧ key = "-0" := by
  constructor
  · rintro ⟨x, hequal, rfl⟩
    obtain ⟨-, -, rfl | ⟨-, hi⟩ | ⟨rfl, hi⟩⟩ := Float.beq_iff_ne_nan_and_eq.1 hequal
    · exact .inl (text_ofNat h)
    · exact absurd hi (nearest_ofNat i).ne_neg_zero
    · exact .inr ⟨eq_zero_of_ofNat_eq_zero hi, by decide +kernel⟩
  · rintro (rfl | ⟨rfl, rfl⟩)
    · exact ⟨Float.ofNat i, Float.beq_self_iff.2 (nearest_ofNat i).ne_nan, text_ofNat h⟩
    · exact ⟨-0, by decide +kernel, by decide +kernel⟩

/-! ### Items of arrays -/

variable {l : Label} {vs : List Value}

/-- The key reaches the items of an array whose index it is a key of, and nothing otherwise, both
where a property is read and where it is asked for. -/
def ReachesByKey (l : Label) (vs : List Value) (key : String) : Prop :=
  (∀ (i : ℕ) (h : i < vs.length), IsKeyOf key i →
    property (array l vs) key = .ok vs[i] ∧ hasProperty (array l vs) key = .ok true) ∧
  ((∀ i < vs.length, ¬IsKeyOf key i) →
    property (array l vs) key = .ok undefined ∧ hasProperty (array l vs) key = .ok false)

theorem property_of_index? (hkey : key ≠ "length") (hindex : index? key = some i)
    (h : i < vs.length) :
    property (array l vs) key = .ok vs[i] ∧ hasProperty (array l vs) key = .ok true := by
  simp [property, hasProperty, hkey, hindex, h]

theorem property_of_no_index (hkey : key ≠ "length") (h : ∀ i < vs.length, index? key ≠ some i) :
    property (array l vs) key = .ok undefined ∧ hasProperty (array l vs) key = .ok false := by
  cases hindex : index? key with
  | none => simp [property, hasProperty, hkey, hindex]
  | some i =>
    have hle : vs.length ≤ i := by
      by_contra hlt
      exact h i (by omega) hindex
    simp [property, hasProperty, hkey, hindex, hle]

theorem index?_toString (i : ℕ) : index? (toString i) = some i :=
  index?_eq_some_iff.2 (isPadded_iff.2 (.inl ⟨0, by
    rw [Nat.toString_eq_repr, Nat.toList_repr]; rfl⟩))

theorem index?_minus_ne (i : ℕ) : index? "-0" ≠ some i := by
  simp [index?]

/-- The negative zero is equal to the first index, but its key is not an index. -/
theorem not_reachesByKey_minus (hpos : 0 < vs.length) : ¬ReachesByKey l vs "-0" := by
  rintro ⟨hreach, -⟩
  have hasked := (hreach 0 hpos ((isKeyOf_iff (by decide)).2 (.inr ⟨rfl, rfl⟩))).2
  rw [(property_of_no_index (by decide) fun i _ => index?_minus_ne i).2] at hasked
  cases hasked

/-- Zeros or a plus sign before an index make a key of no number, but it is read as the index. -/
theorem not_reachesByKey_padded (hlen : vs.length ≤ 2 ^ 53) (hkey : key ≠ "length")
    (hi : i < vs.length) (hpadded : IsPadded key i) (hne : key ≠ toString i) :
    ¬ReachesByKey l vs key := by
  rintro ⟨-, hnone⟩
  have hindex := index?_eq_some_iff.2 hpadded
  have hkeys : ∀ j < vs.length, ¬IsKeyOf key j := by
    intro j hj hj'
    rcases (isKeyOf_iff (hj.trans_le hlen)).1 hj' with rfl | ⟨-, rfl⟩
    · rw [index?_toString] at hindex
      cases hindex
      exact hne rfl
    · exact index?_minus_ne i hindex
  have hasked := (hnone hkeys).2
  rw [(property_of_index? hkey hindex hi).2] at hasked
  cases hasked

/-- **Items of arrays are reached by the keys of their indices** with two exceptions: the key of the
negative zero reaches nothing, and an index is also reached by its digits with zeros or a plus sign
before them. All indices are numbers, hence the bound on the length. -/
theorem reachesByKey_iff (hlen : vs.length ≤ 2 ^ 53) (hkey : key ≠ "length") :
    ReachesByKey l vs key ↔ ¬(key = "-0" ∧ 0 < vs.length ∨
      ∃ i < vs.length, IsPadded key i ∧ key ≠ toString i) := by
  constructor
  · rintro hreach (⟨rfl, hpos⟩ | ⟨i, hi, hpadded, hne⟩)
    · exact not_reachesByKey_minus hpos hreach
    · exact not_reachesByKey_padded hlen hkey hi hpadded hne hreach
  · intro hslip
    rw [not_or, not_and, not_exists] at hslip
    have hindex (i : ℕ) (h : i < vs.length) : index? key = some i ↔ IsKeyOf key i := by
      rw [isKeyOf_iff (h.trans_le hlen), index?_eq_some_iff]
      constructor
      · intro hpadded
        by_contra hne
        exact hslip.2 i ⟨h, hpadded, fun heq => hne (.inl heq)⟩
      · rintro (rfl | ⟨rfl, rfl⟩)
        · exact index?_eq_some_iff.1 (index?_toString i)
        · exact absurd h (hslip.1 rfl)
    exact ⟨fun i h hi => property_of_index? hkey ((hindex i h).2 hi) h,
      fun h => property_of_no_index hkey fun i hi hfound => h i hi ((hindex i hi).1 hfound)⟩

theorem reachesByKey_second : ReachesByKey 0 [string "x", string "y"] "1" := by
  refine (reachesByKey_iff (by decide) (by decide)).2 ?_
  rintro (⟨hminus, -⟩ | ⟨i, -, hpadded, hne⟩)
  · exact absurd hminus (by decide)
  · have hindex := (index?_eq_some_iff.2 hpadded).symm.trans (show index? "1" = some 1 by decide)
    cases hindex
    exact hne (by decide)

theorem not_reachesByKey_zero :
    ¬ReachesByKey 0 [string "x"] "00" ∧ ¬ReachesByKey 0 [string "x"] "-0" :=
  ⟨not_reachesByKey_padded (i := 0) (by decide) (by decide) (by decide)
    ⟨"", by decide, 1, by decide⟩ (by decide), not_reachesByKey_minus (by decide)⟩

end Value

end DeltaForm
