/-!
# Sets of names

Names without repetition, in the order in which they were first added.
-/

namespace DeltaForm

/-- A set of names that keeps their order. -/
structure Symbols where
  /-- The names, each once, in the order of insertion. -/
  names : List String
  deriving DecidableEq, Repr, Inhabited

namespace Symbols

/-- No names. -/
def empty : Symbols := ⟨[]⟩

/-- Whether a name is in the set. -/
def contains (s : Symbols) (name : String) : Bool := s.names.contains name

/-- The set with a name, which comes last if it is new. -/
def insert (s : Symbols) (name : String) : Symbols :=
  if s.contains name then s else ⟨s.names ++ [name]⟩

/-- The names of a list. -/
def ofList (names : List String) : Symbols := names.foldl insert empty

end Symbols

end DeltaForm
