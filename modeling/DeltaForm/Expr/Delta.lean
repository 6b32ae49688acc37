import DeltaForm.Expr

/-!
# Delta expressions

A delta expression names a function that yields a state: `ns[f]` is the variable `f`, and `o.ns[m]`
is the property `m` of `o`, where `ns` is the namespace.
-/

namespace DeltaForm

/-- A delta expression. -/
inductive Delta
  /-- The variable with a name. -/
  | var (name : String)
  /-- The property of an object with a name. -/
  | hop (object : Expr) (name : String)

namespace Expr

/-- Reads the object and the property of `o[p]` as a delta expression of the namespace `ns`. -/
def deltaOf? (ns : String) (object property : Expr) : Option Delta :=
  match property, object with
  | ident _ name, ident _ hop => if hop = ns then some (.var name) else none
  | ident _ name, member _ inner (ident _ hop) false =>
    if hop = ns then some (.hop inner name) else none
  | _, _ => none

/-- A delta expression without the step through the namespace. -/
def stripDelta? (ns : String) : Expr → Option Expr
  | member site object property true =>
    (deltaOf? ns object property).map fun
      | .var name => ident ⟨site.id, property.span⟩ name
      | .hop inner name => member site inner (ident property.site name) false
  | _ => none

end Expr

end DeltaForm
