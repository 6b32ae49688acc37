import DeltaForm.Proofs.Number.Parts
import DeltaForm.Value.Equality

/-!
# Loose equality

`looseEquals` gives its answer at once. Here it is compared with the rules of `==`, which convert
one side at a time, in an order that depends on both (`convert?`): each conversion keeps the answer
and leaves fewer to be made, so the rules end (`exists_settles`). That the order of the two sides
does not matter is then read off the answer, not off the rules, where the two orders take different
ways.
-/

namespace DeltaForm

namespace Value

variable {a b a' b' : Value} {n : Nat} {r r' : Bool}

/-! ### Conversions -/

/-- The next conversion of one side of `==`, if there is one: truth values become numbers, and then
containers next to a number or a string become strings. A number and a string are compared as they
are, by the verdict. -/
def convert? (a b : Value) : Option (Value × Value) :=
  if a.isNullish || b.isNullish then none
  else match a, b with
    | number _, string _ | string _, number _ => none
    | bool _, _ => some (number a.toNumber, b)
    | _, bool _ => some (a, number b.toNumber)
    | array .., number _ | array .., string _ | object .., number _ | object .., string _ =>
      some (string a.text, b)
    | number _, array .. | string _, array .. | number _, object .. | string _, object .. =>
      some (a, string b.text)
    | _, _ => none

/-- The answer of `==` where nothing is left to convert. -/
def verdict (a b : Value) : Bool :=
  if a.isNullish || b.isNullish then a.isNullish && b.isNullish
  else match a, b with
    | number _, string _ | string _, number _ => a.toNumber == b.toNumber
    | _, _ => strictEquals a b

/-- Converting one side at a time, `n` times, ends with the answer `r`. -/
inductive Settles : Nat → Value → Value → Bool → Prop
  | done {a b : Value} (h : convert? a b = none) : Settles 0 a b (verdict a b)
  | convert {a b a' b' : Value} {n : Nat} {r : Bool} (h : convert? a b = some (a', b'))
    (hrest : Settles n a' b' r) : Settles (n + 1) a b r

/-- How many conversions a value can need. -/
def conversions : Value → Nat
  | bool _ | array .. | object .. => 1
  | _ => 0

theorem conversions_lt (h : convert? a b = some (a', b')) :
    a'.conversions + b'.conversions < a.conversions + b.conversions := by
  unfold convert? at h
  split_ifs at h
  split at h <;> cases h <;> simp [conversions]

/-- A conversion keeps the answer. -/
theorem looseEquals_of_convert? (h : convert? a b = some (a', b')) :
    looseEquals a b = looseEquals a' b' := by
  unfold convert? at h
  split_ifs at h
  split at h <;> cases h
  · cases b <;> rfl
  · cases a <;> rfl
  all_goals rfl

theorem looseEquals_of_eq_none (h : convert? a b = none) : looseEquals a b = verdict a b := by
  cases a <;> cases b <;> first | rfl | cases h

theorem conversions_le_one (a : Value) : a.conversions ≤ 1 := by
  cases a <;> simp [conversions]

theorem exists_settles (a b : Value) :
    ∃ n ≤ a.conversions + b.conversions, Settles n a b (looseEquals a b) := by
  -- the conversions that are left to make become fewer with each one that is made
  induction hleft : a.conversions + b.conversions using Nat.strongRecOn generalizing a b with
  | ind left ih =>
    cases hconvert : convert? a b with
    | none =>
      rw [looseEquals_of_eq_none hconvert]
      exact ⟨0, Nat.zero_le _, .done hconvert⟩
    | some next =>
      obtain ⟨a', b'⟩ := next
      have hlt := conversions_lt hconvert
      obtain ⟨n, hn, hsettles⟩ := ih _ (hleft ▸ hlt) a' b' rfl
      rw [looseEquals_of_convert? hconvert]
      exact ⟨n + 1, by omega, .convert hconvert hsettles⟩

/-! ### Symmetry -/

theorem strictEquals_comm (a b : Value) : strictEquals a b = strictEquals b a := by
  cases a <;> cases b <;> first | rfl | exact BEq.comm

theorem looseEquals_comm (a b : Value) : looseEquals a b = looseEquals b a := by
  rw [looseEquals, looseEquals, Bool.or_comm, Bool.and_comm, strictEquals_comm a b]
  split_ifs
  · rfl
  · cases a.comparand <;> cases b.comparand <;>
      first | rfl | exact BEq.comm

/-! ### Strict equality -/

theorem looseEquals_of_strictEquals (h : strictEquals a b = true) : looseEquals a b = true := by
  cases a <;> cases b <;> try first | exact h | rfl | cases h
  case bool.bool x y => cases x <;> cases y <;> first | decide | cases h

/-- **Loose equality** ends after at most two conversions, does not depend on the order of its
sides, and holds wherever strict equality does. -/
theorem looseEquals_extends_strictEquals (a b : Value) :
    (∃ n ≤ 2, Settles n a b (looseEquals a b)) ∧ looseEquals a b = looseEquals b a ∧
      (strictEquals a b = true → looseEquals a b = true) := by
  obtain ⟨n, hn, hsettles⟩ := exists_settles a b
  have ha := a.conversions_le_one
  have hb := b.conversions_le_one
  exact ⟨⟨n, by omega, hsettles⟩, looseEquals_comm a b, looseEquals_of_strictEquals⟩

theorem looseEquals_nested_array :
    (∃ n ≤ 2, Settles n (array 0 [array 1 [string "1"]]) (bool true) true) ∧
      looseEquals (bool true) (array 0 [array 1 [string "1"]]) = true := by
  have hequal : looseEquals (array 0 [array 1 [string "1"]]) (bool true) = true := by
    decide +kernel
  have h := looseEquals_extends_strictEquals (array 0 [array 1 [string "1"]]) (bool true)
  rw [hequal] at h
  exact ⟨h.1, h.2.1.symm⟩

end Value

end DeltaForm
