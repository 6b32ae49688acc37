/-!
# Types

A type says how a value can be used: a plain value directly, a state only through the dependency
runtime, and a function by calling it. Types are joined by `Ty.concat`: a state absorbs, and all
else counts as a plain value, functions included, since they only yield a state once they are
called.
-/

namespace DeltaForm

/-- The type of an expression. -/
inductive Ty
  /-- A value that can be used directly. -/
  | value
  /-- A value that is only there through the dependency runtime. -/
  | state
  /-- A function. -/
  | function (input output : Ty)
  deriving DecidableEq, Repr, Inhabited

namespace Ty

/-- The type of functions from values to values. -/
def valueToValue : Ty := function value value

/-- The type of functions that yield a state. -/
def toState : Ty := function value state

/-- Whether a type is the state type. -/
def isState : Ty → Bool
  | state => true
  | _ => false

/-- Whether a type is a function type. -/
def isFunction : Ty → Bool
  | function .. => true
  | _ => false

/-- The type as its joins see it: functions count as plain values. -/
def flatten : Ty → Ty
  | state => state
  | _ => value

/-- The join of two types: a state if one of them is one. -/
def concat (a b : Ty) : Ty := if a.isState || b.isState then state else value

/-- The join of all types of a list, a plain value if there is none. -/
def concatAll (ts : List Ty) : Ty := ts.foldl concat value

/-- The type of a call: the output of a function, else the type itself. -/
def returns : Ty → Ty
  | function _ output => output
  | t => t

/-- The name of a type. -/
def name : Ty → String
  | value => "Value"
  | state => "State"
  | function input output => "Function(" ++ input.name ++ " -> " ++ output.name ++ ")"

end Ty

end DeltaForm
