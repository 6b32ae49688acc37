import DeltaForm.Text.Quoted

/-!
# Faults at run time

What can go wrong when a program runs.
-/

namespace DeltaForm

/-- What can go wrong when a program runs. -/
inductive RunFault
  /-- A name without a value. -/
  | unbound (name : String)
  /-- A call of a value that is no function; `shown` is its text. -/
  | notCallable (shown : String)
  /-- A property of a missing value of a kind. -/
  | noProperties (kind key : String)
  /-- A search for a key in a value that has none; `shown` is its text. -/
  | notSearchable (key shown : String)
  /-- A name that is no operator's. -/
  | unknownOperator (name : String)
  /-- A call with too few or too many arguments. -/
  | arity (expected got : Nat)
  deriving DecidableEq, Repr

/-- What is wrong. -/
def RunFault.message : RunFault → String
  | unbound name => "undefined variable: " ++ name
  | notCallable shown => shown ++ " is not a function"
  | noProperties kind key =>
    "type error: Cannot read properties of " ++ kind ++ " (reading '" ++ key ++ "')"
  | notSearchable key shown =>
    "type error: Cannot use 'in' operator to search for '" ++ key ++ "' in " ++ shown
  | unknownOperator name => "unknown operator: " ++ Quoted.display name
  | arity expected got =>
    "arity mismatch: expected " ++ toString expected ++ ", got " ++ toString got

end DeltaForm
