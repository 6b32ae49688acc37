import DeltaForm.Value
import DeltaForm.Value.Fault

/-!
# Runs

A run is a computation that may make values with a new identity and may stop early: because of a
fault, or because it reached the depth that it was allowed. It takes the first label that is not in
use and hands on the first one that is not in use after it.
-/

namespace DeltaForm

/-- Why a run stopped. -/
inductive Stop
  /-- Something went wrong. -/
  | fault (f : RunFault)
  /-- The allowed depth was reached. -/
  | tooDeep
  deriving DecidableEq, Repr

/-- A computation that takes the first unused label, and yields a value and the first label that is
unused then. -/
abbrev Run (α : Type) := Label → Except Stop (α × Label)

namespace Run

variable {α β : Type}

/-- The run that yields a value at once. -/
def pure (a : α) : Run α := fun l => .ok (a, l)

/-- One run after another. -/
def bind (r : Run α) (k : α → Run β) : Run β := fun l =>
  match r l with
  | .ok (a, l) => k a l
  | .error e => .error e

instance : Monad Run where
  pure := Run.pure
  bind := Run.bind

/-- The run that fails. -/
def fail (f : RunFault) : Run α := fun _ => .error (.fault f)

/-- The run that stops because it is too deep. -/
def giveUp : Run α := fun _ => .error .tooDeep

/-- A result that may be a fault. -/
def ofExcept : Except RunFault α → Run α
  | .ok a => pure a
  | .error f => fail f

/-- Makes a value with a new identity. -/
def fresh (make : Label → Value) : Run Value := fun l => .ok (make l, l + 1)

end Run

end DeltaForm
