import DeltaForm.Number.Decimal

/-!
# Number texts

A finite number is written with the digits of its shortest decimal. How they are laid out is a
`Layout`: the text of a number in programs and results (`Layout.plain`) never has an exponent, the
one in token listings (`Layout.listing`) has one for very large and very small numbers and always
shows a fraction otherwise.
-/

namespace DeltaForm

/-- How the digits of numbers are laid out. -/
structure Layout where
  /-- Whether a number whose leading digit stands at `10 ^ p` is written with an exponent. -/
  scientific : Int → Bool
  /-- Whether an integer is written with `.0`. -/
  fraction : Bool
  /-- The text of the positive infinity. -/
  infinity : String

namespace Layout

/-- Positional throughout, integers without a point. -/
def plain : Layout := ⟨fun _ => false, false, "Infinity"⟩

/-- Positional from `10 ^ (-4)` up to `10 ^ 16`, and integers show `.0`. -/
def listing : Layout := ⟨fun p => p < -4 || 16 ≤ p, true, "inf"⟩

/-- The digits of a decimal in positional notation. -/
def positional (fraction : Bool) (d : Decimal) : List Char :=
  let ds := Nat.toDigits 10 d.digits
  if 0 ≤ d.exp then
    ds ++ List.replicate d.exp.toNat '0' ++ (if fraction then ['.', '0'] else [])
  else
    let places := (-d.exp).toNat
    if places < ds.length then
      ds.take (ds.length - places) ++ '.' :: ds.drop (ds.length - places)
    else '0' :: '.' :: List.replicate (places - ds.length) '0' ++ ds

/-- The digits of a decimal with a point after the first one and an exponent. -/
def exponential (d : Decimal) : List Char :=
  let ds := Nat.toDigits 10 d.digits
  let p := d.exp + ds.length - 1
  ds.take 1 ++ (if ds.length ≤ 1 then [] else '.' :: ds.drop 1) ++ 'e' :: (toString p).toList

variable (l : Layout)

/-- The text of a finite number of at least zero. -/
def magnitude (x : Float) (mant : Nat) (exp : Int) : List Char :=
  if mant = 0 then positional l.fraction ⟨0, 0⟩
  else
    let d := Decimal.shortest x mant exp
    if l.scientific (d.exp + Decimal.width d.digits - 1) then exponential d
    else positional l.fraction d

/-- The text of a number. -/
def write (x : Float) : List Char :=
  match Parts.of x with
  | .nan => ['N', 'a', 'N']
  | .infinite neg => (if neg then ['-'] else []) ++ l.infinity.toList
  | .finite neg mant exp =>
    (if neg then ['-'] else []) ++ magnitude l (if neg then -x else x) mant exp

end Layout

/-- The text of a number in programs and results. -/
def Number.text (x : Float) : String := String.ofList (Layout.plain.write x)

end DeltaForm
