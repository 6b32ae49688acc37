import DeltaForm.Span

/-!
# Diagnostics

What a reader of a source text is told about a fault in it: where it is, what is wrong, and
sometimes what to do about it.
-/

namespace DeltaForm

/-- A message about a place in a source text. -/
structure Diagnostic where
  /-- The place. -/
  span : Span
  /-- What is wrong there. -/
  message : String
  /-- What to do about it. -/
  hint : Option String
  deriving DecidableEq, Repr

end DeltaForm
