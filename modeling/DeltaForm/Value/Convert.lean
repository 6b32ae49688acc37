import DeltaForm.Number.Decimal
import DeltaForm.Text.Blank
import DeltaForm.Value.Display

/-!
# Values as numbers

A string is read as a number without the blanks around it: nothing is zero, `0x`, `0b` and `0o`
start the digits of another base, and otherwise it is a decimal numeral or `Infinity`, with an
optional sign. A text that is none of these is not a number.
-/

namespace DeltaForm

namespace Number

/-- Not a number. -/
def nan : Float := 0 / 0

/-- The positive infinity. -/
def infinity : Float := 1 / 0

/-- Reads the digits after a base mark, with an optional plus sign. -/
def readBased (base : Base) (cs : List Char) : Float :=
  let digits := match cs with
    | '+' :: cs => cs
    | cs => cs
  (base.read? digits).getD nan

/-- Reads a decimal numeral without a sign, or `Infinity`. -/
def readUnsigned (cs : List Char) : Float :=
  if cs = "Infinity".toList then infinity
  else match Decimal.read? cs with
    | some d => d.toFloat
    | none => nan

/-- Reads a decimal numeral or `Infinity`, with an optional sign. -/
def readSigned (cs : List Char) : Float :=
  match cs with
  | '+' :: cs => readUnsigned cs
  | '-' :: cs => -readUnsigned cs
  | cs => readUnsigned cs

/-- Reads a text as a number. -/
def read (s : String) : Float :=
  match trimBlanks s.toList with
  | [] => 0
  | '0' :: mark :: cs =>
    match Base.ofMark? mark with
    | some base => readBased base cs
    | none => readUnsigned ('0' :: mark :: cs)
  | cs => readSigned cs

end Number

namespace Value

/-- A value as a number. -/
def toNumber : Value → Float
  | undefined => Number.nan
  | null => 0
  | bool b => if b then 1 else 0
  | number x => x
  | string s => Number.read s
  | array l vs => Number.read (text (array l vs))
  | object .. | closure .. | native .. | state .. => Number.nan

end Value

end DeltaForm
