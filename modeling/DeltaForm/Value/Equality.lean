import DeltaForm.Value.Convert

/-!
# Equality of values

Three relations: `strictEquals` compares data by content and all else by identity, `looseEquals`
converts before it compares, and `sameContent` compares arrays, objects and states by content and
functions by identity. No relation makes not-a-number equal to itself.
-/

namespace DeltaForm

namespace Value

/-- Equality of `===`: by content for data without parts, by identity for the rest. -/
def strictEquals : Value → Value → Bool
  | undefined, undefined => true
  | null, null => true
  | bool a, bool b => a == b
  | number a, number b => a == b
  | string a, string b => a == b
  | array a _, array b _ => a == b
  | object a _, object b _ => a == b
  | closure a _ _ _ _, closure b _ _ _ _ => a == b
  | native a _, native b _ => a == b
  | state a _, state b _ => a == b
  | _, _ => false

/-- What a value is compared as by `==`. -/
inductive Comparand
  /-- A number, or a truth value as one. -/
  | number (x : Float)
  /-- A string. -/
  | string (s : String)
  /-- An array or object, with its text. -/
  | container (s : String)
  /-- A function or state, compared by identity only. -/
  | other

/-- What a value is compared as by `==`. -/
def comparand : Value → Comparand
  | number x => .number x
  | bool b => .number (if b then 1 else 0)
  | string s => .string s
  | array l vs => .container (text (array l vs))
  | object l fs => .container (text (object l fs))
  | _ => .other

/-- Equality of `==`: missing values equal each other only, truth values count as numbers, a
container counts as its text next to a number or a string, and a string as a number next to a
number. -/
def looseEquals (a b : Value) : Bool :=
  if a.isNullish || b.isNullish then a.isNullish && b.isNullish
  else match a.comparand, b.comparand with
    | .number x, .number y => x == y
    | .number x, .string t | .number x, .container t => x == Number.read t
    | .string s, .number y | .container s, .number y => Number.read s == y
    | .string s, .string t | .string s, .container t | .container s, .string t => s == t
    | _, _ => strictEquals a b

mutual

/-- Equality of content: arrays item by item, objects field by field in any order, states part by
part, and functions by identity. -/
def sameContent : Value → Value → Bool
  | array _ vs, array _ ws => sameItems vs ws
  | object _ fs, object _ gs => fs.length == gs.length && sameFields fs gs
  | state _ d, state _ e => sameDescriptor d e
  | undefined, undefined => true
  | null, null => true
  | bool a, bool b => a == b
  | number a, number b => a == b
  | string a, string b => a == b
  | closure a _ _ _ _, closure b _ _ _ _ => a == b
  | native a _, native b _ => a == b
  | _, _ => false

/-- Equality of items, one by one. -/
def sameItems : List Value → List Value → Bool
  | [], [] => true
  | v :: vs, w :: ws => sameContent v w && sameItems vs ws
  | _, _ => false

/-- Whether every field of the first object has its like in the second. -/
def sameFields : List (String × Value) → List (String × Value) → Bool
  | [], _ => true
  | (k, v) :: fs, gs =>
    (match gs.lookup k with
      | some w => sameContent v w
      | none => false) && sameFields fs gs

/-- Equality of states, part by part. -/
def sameDescriptor : Descriptor → Descriptor → Bool
  | .success v, .success w => sameContent v w
  | .depend l f vs, .depend m g ws => l == m && sameContent f g && sameItems vs ws
  | .deferred f vs, .deferred g ws => sameContent f g && sameItems vs ws
  | _, _ => false

end

end Value

end DeltaForm
