import DeltaForm.Eval
import DeltaForm.Proofs.Operators
import Mathlib.Logic.Function.Basic

/-!
# Values with other labels

Labels are only there to be compared. `Value.rename f` gives every part of a value the label that
`f` makes of its own. Texts, numbers and properties do not see labels, and the operators that
compare them see no more than whether two are the same, so they commute with injective renamings.
-/

namespace DeltaForm

mutual

/-- The value with other labels. -/
def Value.rename (f : Label → Label) : Value → Value
  | .undefined => .undefined
  | .null => .null
  | .bool b => .bool b
  | .number x => .number x
  | .string s => .string s
  | .array l vs => .array (f l) (Value.renameList f vs)
  | .object l fs => .object (f l) (Env.rename f fs)
  | .closure l name ps body env => .closure (f l) name ps body (Env.rename f env)
  | .native l g => .native (f l) (Native.rename f g)
  | .state l d => .state (f l) (Descriptor.rename f d)

/-- The values with other labels. -/
def Value.renameList (f : Label → Label) : List Value → List Value
  | [] => []
  | v :: vs => Value.rename f v :: Value.renameList f vs

/-- The bindings with other labels. -/
def Env.rename (f : Label → Label) : Env → Env
  | [] => []
  | (name, v) :: env => (name, Value.rename f v) :: Env.rename f env

/-- The function with other labels. -/
def Native.rename (f : Label → Label) : Native → Native
  | .binary op => .binary op
  | .logical op => .logical op
  | .unary op => .unary op
  | .member => .member
  | .array => .array
  | .choice => .choice
  | .success => .success
  | .depend => .depend
  | .lookup name table => .lookup name (Value.rename f table)

/-- The descriptor with other labels. -/
def Descriptor.rename (f : Label → Label) : Descriptor → Descriptor
  | .success v => .success (Value.rename f v)
  | .depend lifted g args => .depend lifted (Value.rename f g) (Value.renameList f args)
  | .deferred g args => .deferred (Value.rename f g) (Value.renameList f args)

end

variable {f : Label → Label}

theorem Native.name_rename (g : Native) : (g.rename f).name = g.name := by
  cases g <;> rfl

namespace Value

theorem renameList_eq_map (vs : List Value) : renameList f vs = vs.map (rename f) := by
  induction vs with
  | nil => rfl
  | cons v vs ih => rw [renameList, ih, List.map_cons]

theorem getElem?_renameList (vs : List Value) (i : Nat) :
    (renameList f vs)[i]? = vs[i]?.map (rename f) := by
  rw [renameList_eq_map, List.getElem?_map]

theorem length_renameList (vs : List Value) : (renameList f vs).length = vs.length := by
  rw [renameList_eq_map, List.length_map]

theorem tail_renameList (vs : List Value) : (renameList f vs).tail = renameList f vs.tail := by
  cases vs <;> rfl

theorem drop_renameList (vs : List Value) (n : Nat) :
    (renameList f vs).drop n = renameList f (vs.drop n) := by
  simp only [renameList_eq_map, List.map_drop]

end Value

namespace Env

theorem lookup_rename (env : Env) (name : String) :
    (rename f env).lookup name = (env.lookup name).map (Value.rename f) := by
  induction env with
  | nil => rfl
  | cons b env ih =>
    obtain ⟨key, v⟩ := b
    rw [rename, List.lookup_cons, List.lookup_cons]
    cases name == key with
    | true => rfl
    | false => exact ih

theorem withSelf_rename (env : Env) (name : Option String) (v : Value) :
    withSelf (rename f env) name (v.rename f) = rename f (withSelf env name v) := by
  cases name <;> rfl

end Env

/-- All labels in the environment are smaller than `l`: no other label is seen by a renaming. -/
def Env.Below (env : Env) (l : Label) : Prop :=
  ∀ f : Label → Label, (∀ x < l, f x = x) → env.rename f = env

theorem argument_rename (args : List Value) (i : Nat) :
    argument (Value.renameList f args) i = (argument args i).rename f := by
  rw [argument, argument, Value.getElem?_renameList]
  cases args[i]? <;> rfl

/-! ### What does not see labels -/

namespace Value

@[simp]
theorem isTruthy_rename (v : Value) : (v.rename f).isTruthy = v.isTruthy := by
  cases v <;> rfl

@[simp]
theorem isNullish_rename (v : Value) : (v.rename f).isNullish = v.isNullish := by
  cases v <;> rfl

@[simp]
theorem typeOf_rename (v : Value) : (v.rename f).typeOf = v.typeOf := by
  cases v <;> rfl

@[simp]
theorem isTextual_rename (v : Value) : (v.rename f).isTextual = v.isTextual := by
  cases v <;> rfl

@[simp]
theorem decides_rename (op : LogicalOp) (v : Value) : (v.rename f).decides op = v.decides op := by
  cases op <;> simp [decides]

mutual

@[simp]
theorem display_rename : ∀ v : Value, (v.rename f).display = v.display
  | undefined | null | bool _ | number _ | string _ | array _ [] | object _ [] | closure .. => rfl
  | array _ (v :: vs) => by
    simp only [rename, renameList, display, display_rename v, displayMore_rename vs]
  | object _ ((_, v) :: fs) => by
    simp only [rename, Env.rename, display, display_rename v, displayFields_rename fs]
  | native _ g => by simp only [rename, display, Native.name_rename]
  | state _ d => by simp only [rename, display, displayDescriptor_rename d]

theorem displayMore_rename : ∀ vs : List Value, displayMore (renameList f vs) = displayMore vs
  | [] => rfl
  | v :: vs => by simp only [renameList, displayMore, display_rename v, displayMore_rename vs]

theorem displayFields_rename :
    ∀ fs : List (String × Value), displayFields (Env.rename f fs) = displayFields fs
  | [] => rfl
  | (_, v) :: fs => by
    simp only [Env.rename, displayFields, display_rename v, displayFields_rename fs]

theorem displayDescriptor_rename :
    ∀ d : Descriptor, displayDescriptor (d.rename f) = displayDescriptor d
  | .success v => by simp only [Descriptor.rename, displayDescriptor, display_rename v]
  | .depend _ g args | .deferred g args => by
    simp only [Descriptor.rename, displayDescriptor, display_rename g, displayMore_rename args]

end

mutual

@[simp]
theorem text_rename : ∀ v : Value, (v.rename f).text = v.text
  | undefined | null | bool _ | number _ | string _ | object .. => rfl
  | array _ vs => by simp only [rename, text, itemTexts_rename vs]
  | closure .. => rfl
  | native l g => display_rename (native l g)
  | state l d => display_rename (state l d)

theorem itemTexts_rename : ∀ vs : List Value, itemTexts (renameList f vs) = itemTexts vs
  | [] => rfl
  | v :: vs => by
    simp only [renameList, itemTexts, isNullish_rename, text_rename v, itemTexts_rename vs]

end

@[simp]
theorem toNumber_rename (v : Value) : (v.rename f).toNumber = v.toNumber := by
  cases v with
  | array l vs => exact congrArg Number.read (text_rename (array l vs))
  | _ => rfl

@[simp]
theorem toWord_rename (v : Value) : (v.rename f).toWord = v.toWord := by
  rw [toWord, toWord, toNumber_rename]

theorem comparand_rename (v : Value) : (v.rename f).comparand = v.comparand := by
  cases v with
  | array l vs => exact congrArg Comparand.container (text_rename (array l vs))
  | _ => rfl

theorem order_eq_of_toNumber_eq {a b a' b' : Value} (h : ¬∃ s t, a = string s ∧ b = string t)
    (h' : ¬∃ s t, a' = string s ∧ b' = string t) (ha : a'.toNumber = a.toNumber)
    (hb : b'.toNumber = b.toNumber) : order a' b' = order a b := by
  unfold order
  split
  · exact absurd ⟨_, _, rfl, rfl⟩ h'
  · split
    · exact absurd ⟨_, _, rfl, rfl⟩ h
    · rw [ha, hb]

theorem rename_eq_string_iff {v : Value} {s : String} :
    v.rename f = string s ↔ v = string s := by
  cases v <;> simp [rename]

@[simp]
theorem order_rename (a b : Value) : order (a.rename f) (b.rename f) = order a b := by
  by_cases h : ∃ s t, a = string s ∧ b = string t
  · obtain ⟨s, t, rfl, rfl⟩ := h
    rfl
  · refine order_eq_of_toNumber_eq h ?_ (toNumber_rename a) (toNumber_rename b)
    simpa only [rename_eq_string_iff] using h

theorem property_rename (v : Value) (key : String) :
    (v.rename f).property key = (v.property key).map (rename f) := by
  cases v with
  | array l vs =>
    simp only [rename, property, length_renameList, getElem?_renameList]
    split
    · rfl
    · cases index? key with
      | none => rfl
      | some i => cases h : vs[i]? <;> simp [h, Except.map, rename]
  | object l fs =>
    simp only [rename, property, Env.lookup_rename]
    cases fs.lookup key <;> rfl
  | string s =>
    simp only [rename, property]
    split
    · rfl
    · cases (index? key).bind _ <;> rfl
  | _ => rfl

theorem hasProperty_rename (v : Value) (key : String) :
    (v.rename f).hasProperty key = v.hasProperty key := by
  have h : ∀ w : Value, (.error (.notSearchable key (w.rename f).display) : Except RunFault Bool) =
      .error (.notSearchable key w.display) := fun w => by rw [display_rename]
  cases v with
  | array l vs => simp only [rename, hasProperty, length_renameList]
  | object l fs => simp only [rename, hasProperty, Env.lookup_rename, Option.isSome_map]
  | native l g => exact h (native l g)
  | state l d => exact h (state l d)
  | _ => rfl

/-! ### What sees whether two labels are the same -/

theorem strictEquals_rename (hf : Function.Injective f) (a b : Value) :
    strictEquals (a.rename f) (b.rename f) = strictEquals a b := by
  have h : ∀ l m : Label, (f l == f m) = (l == m) := fun l m => by
    simp only [beq_eq_beq, hf.eq_iff]
  cases a <;> cases b <;> first | rfl | exact h _ _

theorem looseEquals_rename (hf : Function.Injective f) (a b : Value) :
    looseEquals (a.rename f) (b.rename f) = looseEquals a b := by
  simp only [looseEquals, isNullish_rename, comparand_rename, strictEquals_rename hf]

theorem unary_rename (op : UnaryOp) (v : Value) :
    unary op (v.rename f) = (unary op v).rename f := by
  cases op <;> simp [unary, rename]

theorem add_rename (a b : Value) : add (a.rename f) (b.rename f) = (add a b).rename f := by
  simp only [add, isTextual_rename, text_rename, toNumber_rename]
  split <;> rfl

/-- **Operators commute with injective renamings.** -/
theorem binary_rename (hf : Function.Injective f) (op : BinaryOp) (a b : Value) :
    binary op (a.rename f) (b.rename f) = (binary op a b).map (rename f) := by
  cases op with
  | add => simp only [binary, add_rename, Except.map]
  | eq | ne => simp only [binary, looseEquals_rename hf, Except.map, rename]
  | strictEq | strictNe => simp only [binary, strictEquals_rename hf, Except.map, rename]
  | isIn =>
    simp only [binary, text_rename, hasProperty_rename]
    cases b.hasProperty a.text <;> rfl
  | _ => simp only [binary, toNumber_rename, toWord_rename, order_rename, Except.map, rename]

end Value

theorem Native.rename_of_ofOperator? {name : String} {g : Native} (h : ofOperator? name = some g) :
    g.rename f = g := by
  cases g with
  | lookup n table => exact absurd rfl (ne_lookup_of_ofOperator? h n table)
  | _ => rfl

end DeltaForm
