import DeltaForm.Value.Operate
import Mathlib.Tactic.SplitIfs

/-!
# The operators of the runtime

The runtime knows every operator of the language, property access and array construction under the
names that lifted trees use for them, and no table is among its operators. An operator makes no
value with parts, a property is a part of the value that has it, and neither reads a name.
-/

namespace DeltaForm

theorem mem_of_lookup_eq_some {α : Type} {es : List (String × α)} {name : String} {a : α}
    (h : es.lookup name = some a) : (name, a) ∈ es := by
  obtain ⟨before, after, rfl, -⟩ := List.lookup_eq_some_iff.1 h
  exact List.mem_append_right _ List.mem_cons_self

namespace Value

/-- Whether a value has no identity, and so no parts. -/
def isPrimitive : Value → Bool
  | undefined | null | bool _ | number _ | string _ => true
  | _ => false

/-- The values that a value holds as its properties. -/
def parts : Value → List Value
  | array _ vs => vs
  | object _ fs => fs.map Prod.snd
  | _ => []

variable {v w : Value} {op : BinaryOp} {key x : String}

theorem unary_isPrimitive (op : UnaryOp) (v : Value) : (unary op v).isPrimitive = true := by
  cases op <;> rfl

theorem isPrimitive_of_binary {a b : Value} (h : binary op a b = .ok w) :
    w.isPrimitive = true := by
  cases op with
  | isIn =>
    rw [binary] at h
    cases hb : hasProperty b a.text with
    | error => rw [hb] at h; cases h
    | ok => rw [hb] at h; cases h; rfl
  | add =>
    rw [binary, add] at h
    split at h <;> cases h <;> rfl
  | _ => cases h; rfl

theorem binary_ne_unbound {a b : Value} : binary op a b ≠ .error (.unbound x) := by
  intro h
  cases op with
  | isIn => cases b <;> cases h
  | _ => cases h

theorem property_eq_ok (h : v.property key = .ok w) : w.isPrimitive = true ∨ w ∈ v.parts := by
  -- A missing property is undefined.
  have hgetD {o : Option Value} (ho : ∀ a, o = some a → a ∈ v.parts) (hw : o.getD undefined = w) :
      w.isPrimitive = true ∨ w ∈ v.parts := by
    cases o with
    | none => exact .inl (hw ▸ rfl)
    | some a => exact .inr (hw ▸ ho a rfl)
  cases v with
  | undefined | null => cases h
  | object _ fs =>
    refine hgetD (fun a ha => ?_) (Except.ok.inj h)
    exact List.mem_map.2 ⟨_, mem_of_lookup_eq_some ha, rfl⟩
  | array _ vs =>
    rw [property] at h
    split at h
    · cases h
      exact .inl rfl
    · refine hgetD (fun a ha => ?_) (Except.ok.inj h)
      obtain ⟨i, -, hi⟩ := Option.bind_eq_some_iff.1 ha
      exact List.mem_of_getElem? hi
  | string s =>
    rw [property] at h
    split at h
    · cases h
      exact .inl rfl
    · cases hu : (index? key).bind ((units s)[·]?) with
      | none => rw [hu] at h; cases h; exact .inl rfl
      | some => rw [hu] at h; cases h; exact .inl rfl
  | _ => cases h; exact .inl rfl

theorem property_ne_unbound : v.property key ≠ .error (.unbound x) := by
  intro h
  cases v with
  | array | string =>
    rw [property] at h
    split at h <;> cases h
  | _ => cases h

end Value

namespace Native

theorem ofOperator?_binary (op : BinaryOp) : ofOperator? op.symbol = some (.binary op) := by
  cases op <;> rfl

theorem ofOperator?_logical (op : LogicalOp) : ofOperator? op.symbol = some (.logical op) := by
  cases op <;> rfl

theorem ofOperator?_unary (op : UnaryOp) : ofOperator? op.operatorName = some (.unary op) := by
  cases op <;> rfl

theorem ofOperator?_member : ofOperator? memberOperator = some .member := rfl

theorem ofOperator?_array : ofOperator? arrayOperator = some .array := rfl

theorem ne_lookup_of_ofOperator? {name : String} {f : Native} (h : ofOperator? name = some f)
    (n : String) (table : Value) : f ≠ .lookup n table := by
  rintro rfl
  unfold ofOperator? at h
  generalize BinaryOp.all.find? (·.symbol = name) = b at h
  generalize LogicalOp.all.find? (·.symbol = name) = c at h
  generalize UnaryOp.all.find? (·.operatorName = name) = u at h
  cases b with
  | some => cases h
  | none =>
    cases c with
    | some => cases h
    | none =>
      cases u with
      | some => cases h
      | none =>
        simp only [Option.map_none, Option.orElse_none] at h
        split_ifs at h <;> cases h

end Native

end DeltaForm
