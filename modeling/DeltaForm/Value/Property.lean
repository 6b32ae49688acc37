import DeltaForm.Text.Units
import DeltaForm.Value.Display
import DeltaForm.Value.Fault
import DeltaForm.Number.Base

/-!
# Properties

Objects have their fields as properties, arrays and strings their items and their `length`; other
values have none, and a missing value has not even that. An index is a row of digits with an
optional plus sign. Indices and lengths of strings count UTF-16 units.
-/

namespace DeltaForm

/-- The index that a property key denotes. -/
def index? (key : String) : Option Nat :=
  let digits := match key.toList with
    | '+' :: ds => ds
    | ds => ds
  if !digits.isEmpty && digits.all Char.isDigit then some (digitsValue 10 digits) else none

namespace Value

/-- The property of a value under a key. -/
def property (v : Value) (key : String) : Except RunFault Value :=
  match v with
  | undefined | null => .error (.noProperties v.kind key)
  | object _ fs => .ok ((fs.lookup key).getD undefined)
  | array _ vs =>
    if key = "length" then .ok (number (Float.ofNat vs.length))
    else .ok (((index? key).bind (vs[·]?)).getD undefined)
  | string s =>
    if key = "length" then .ok (number (Float.ofNat (units s).length))
    else .ok (((index? key).bind ((units s)[·]?)).elim undefined fun u => string (unitText u))
  | _ => .ok undefined

/-- Whether a value has a property under a key; only objects and arrays can be asked. -/
def hasProperty (v : Value) (key : String) : Except RunFault Bool :=
  match v with
  | object _ fs => .ok (fs.lookup key).isSome
  | array _ vs => .ok (key = "length" || (index? key).any (· < vs.length))
  | _ => .error (.notSearchable key v.display)

end Value

end DeltaForm
