import DeltaForm.Number.Layout
import DeltaForm.Text.Quoted
import DeltaForm.Value

/-!
# Texts of values

A value has two texts: `Value.display` shows it in results, with strings in quotes and containers
written out, and `Value.text` is what it becomes as part of a string or as a property key.
-/

namespace DeltaForm

/-- The text of a truth value. -/
def boolText (b : Bool) : String := if b then "true" else "false"

/-- The text of a function with a name. -/
def functionText : Option String → String
  | some name => "[Function " ++ name ++ "]"
  | none => "[Function (anonymous)]"

namespace Value

mutual

/-- A value as results show it. -/
def display : Value → String
  | undefined => "undefined"
  | null => "null"
  | bool b => boolText b
  | number x => Number.text x
  | string s => Quoted.display s
  | array _ [] => "[]"
  | array _ (v :: vs) => "[" ++ display v ++ displayMore vs ++ "]"
  | object _ [] => "\x7b\x7d"
  | object _ ((k, v) :: fs) => "\x7b " ++ k ++ ": " ++ display v ++ displayFields fs ++ " \x7d"
  | closure _ name _ _ _ => functionText name
  | native _ f => functionText (some f.name)
  | state _ d => displayDescriptor d

/-- Values with a comma before each. -/
def displayMore : List Value → String
  | [] => ""
  | v :: vs => ", " ++ display v ++ displayMore vs

/-- Fields with a comma before each. -/
def displayFields : List (String × Value) → String
  | [] => ""
  | (k, v) :: fs => ", " ++ k ++ ": " ++ display v ++ displayFields fs

/-- A state as results show it. -/
def displayDescriptor : Descriptor → String
  | .success v => "Success(" ++ display v ++ ")"
  | .depend lifted f args =>
    "Depend(" ++ boolText lifted ++ ", " ++ display f ++ displayMore args ++ ")"
  | .deferred f args => "Deferred(" ++ display f ++ displayMore args ++ ")"

end

mutual

/-- A value as part of a string or as a property key. In arrays, missing values leave no trace. -/
def text : Value → String
  | undefined => "undefined"
  | null => "null"
  | bool b => boolText b
  | number x => Number.text x
  | string s => s
  | array _ vs => ",".intercalate (itemTexts vs)
  | object _ _ => "[object Object]"
  | closure l name ps body env => display (closure l name ps body env)
  | native l f => display (native l f)
  | state l d => display (state l d)

/-- The texts of the items of an array. -/
def itemTexts : List Value → List String
  | [] => []
  | v :: vs => (if v.isNullish then "" else text v) :: itemTexts vs

end

end Value

end DeltaForm
