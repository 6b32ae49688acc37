/-!
# Named entries

Values under names, in the order in which the names were first put in. Each name stands once: a
value put in under a known name takes the place of the old one.
-/

namespace DeltaForm

/-- Values under names, in the order of insertion. -/
abbrev Entries (α : Type) := List (String × α)

namespace Entries

variable {α : Type}

/-- The value under a name. -/
def get? (es : Entries α) (name : String) : Option α := es.lookup name

/-- Whether there is a value under a name. -/
def has (es : Entries α) (name : String) : Bool := (es.get? name).isSome

/-- Puts a value under a name: in the place of the old one, or last. -/
def put (es : Entries α) (name : String) (value : α) : Entries α :=
  match es with
  | [] => [(name, value)]
  | (n, v) :: es => if n = name then (n, value) :: es else (n, v) :: put es name value

/-- Puts in the values of a list, one after another. -/
def putAll (es : Entries α) (more : List (String × α)) : Entries α :=
  more.foldl (fun es e => es.put e.1 e.2) es

/-- Takes out the value under a name; the others keep their order. -/
def remove (es : Entries α) (name : String) : Entries α := es.filter fun e => e.1 ≠ name

/-- The names, in order. -/
def names (es : Entries α) : List String := es.map Prod.fst

end Entries

end DeltaForm
