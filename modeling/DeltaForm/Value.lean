import DeltaForm.Entries
import DeltaForm.Expr

/-!
# Values

The values that programs compute with: data, functions and states. A state is a descriptor of the
dependency runtime; it says what is to be called once its operands are there.

Arrays, objects, functions and states have an identity besides their content, which `===` compares.
It is a `Label`, and every value of these kinds that is made gets a label of its own.
-/

namespace DeltaForm

/-- The identity of a value. -/
abbrev Label := Nat

mutual

/-- A value. -/
inductive Value
  | undefined
  | null
  | bool (value : Bool)
  | number (value : Float)
  | string (value : String)
  | array (label : Label) (items : List Value)
  | object (label : Label) (fields : List (String × Value))
  /-- A function literal with the environment it was made in. -/
  | closure (label : Label) (name : Option String) (params : List Param) (body : Expr)
      (env : List (String × Value))
  /-- A function that is no function literal. -/
  | native (label : Label) (function : Native)
  | state (label : Label) (descriptor : Descriptor)

/-- A function that is no function literal. -/
inductive Native
  | binary (op : BinaryOp)
  | logical (op : LogicalOp)
  | unary (op : UnaryOp)
  /-- Property access. -/
  | member
  /-- Array construction. -/
  | array
  /-- Calls one of two functions without arguments, depending on a test. -/
  | choice
  /-- Makes a resolved state. -/
  | success
  /-- Makes a state that waits. -/
  | depend
  /-- Looks a key up in a table and yields the entry as a resolved state. -/
  | lookup (name : String) (table : Value)

/-- What a state is. -/
inductive Descriptor
  /-- A value that is there. -/
  | success (value : Value)
  /-- A call that waits for its operands. If `lifted`, its result is a plain value, else a state. -/
  | depend (lifted : Bool) (callee : Value) (args : List Value)
  /-- A call of a function that yields a state, not yet made. -/
  | deferred (callee : Value) (args : List Value)

end

instance : Inhabited Value := ⟨.undefined⟩

/-- The name of a native function. -/
def Native.name : Native → String
  | binary op => op.symbol
  | logical op => op.symbol
  | unary op => op.operatorName
  | member => memberOperator
  | array => arrayOperator
  | choice => choiceName
  | success => "success"
  | depend => "depend"
  | lookup name _ => name

/-- An environment: values under names, the innermost first. -/
abbrev Env := List (String × Value)

namespace Env

/-- The value that a name is bound to. -/
def get? (env : Env) (name : String) : Option Value := env.lookup name

/-- Binds a name to a value. -/
def bind (env : Env) (name : String) (value : Value) : Env := (name, value) :: env

/-- Binds names to values, of which a later one hides an earlier one of the same name. -/
def extend (env : Env) (bindings : List (String × Value)) : Env := bindings.reverse ++ env

end Env

namespace Value

/-- Whether there is no value. -/
def isNullish : Value → Bool
  | undefined | null => true
  | _ => false

/-- Whether a value is a state. -/
def isState : Value → Bool
  | state .. => true
  | _ => false

/-- Whether a test with the value succeeds. -/
def isTruthy : Value → Bool
  | undefined | null => false
  | bool b => b
  | number x => x != 0 && !x.isNaN
  | string s => !s.isEmpty
  | _ => true

/-- The kind of a value as `typeof` tells it. -/
def typeOf : Value → String
  | undefined => "undefined"
  | bool _ => "boolean"
  | number _ => "number"
  | string _ => "string"
  | closure .. | native .. => "function"
  | null | array .. | object .. | state .. => "object"

/-- The kind of a value in messages. -/
def kind : Value → String
  | undefined => "undefined"
  | null => "null"
  | bool _ => "boolean"
  | number _ => "number"
  | string _ => "string"
  | array .. => "array"
  | object .. => "object"
  | closure .. | native .. => "function"
  | state .. => "state"

end Value

end DeltaForm
