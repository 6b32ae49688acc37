import DeltaForm.Json
import DeltaForm.Text.Blank
import DeltaForm.Text.Quoted

/-!
# Bindings in text

A binding is written `NAME=JSON`. Blanks around the name do not count, and a right side that is no
JSON document is a string as it stands.
-/

namespace DeltaForm

/-- A name and a document. -/
structure Binding where
  /-- The name. -/
  name : String
  /-- The document that it is bound to. -/
  document : Json

/-- Why a text is no binding. -/
inductive BindingFault
  /-- There is no equals sign. -/
  | noEquals (arg : String)
  /-- There is no name. -/
  | noName (arg : String)
  deriving DecidableEq, Repr

/-- What is wrong. -/
def BindingFault.message : BindingFault → String
  | noEquals arg => "expected NAME=JSON, got " ++ Quoted.display arg
  | noName arg => "missing name in " ++ Quoted.display arg

/-- Reads a binding. -/
def Binding.read (arg : String) : Except BindingFault Binding :=
  let cs := arg.toList
  match cs.dropWhile (· ≠ '=') with
  | [] => .error (.noEquals arg)
  | _ :: right =>
    let name := trimBlanks (cs.takeWhile (· ≠ '='))
    if name.isEmpty then .error (.noName arg)
    else
      let right := String.ofList right
      .ok ⟨String.ofList name, (Json.read? right).getD (.string right)⟩

end DeltaForm
