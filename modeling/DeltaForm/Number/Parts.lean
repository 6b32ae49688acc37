/-!
# The parts of a number

A number is a double-precision float. `Parts.of` takes one apart into its sign and, when it is
finite, the integers `mant` and `exp` of its value `mant · 2 ^ exp`; `Parts.exact` puts a value
together again. What is computed exactly on these integers: cutting off a fraction, and the
remainder of a division.
-/

namespace DeltaForm

/-- A number taken apart. -/
inductive Parts
  /-- Not a number. -/
  | nan
  /-- An infinity and whether it is negative. -/
  | infinite (neg : Bool)
  /-- The value `mant · 2 ^ exp`, negated if `neg`. -/
  | finite (neg : Bool) (mant : Nat) (exp : Int)
  deriving DecidableEq, Repr

namespace Parts

/-- The bit above the 52 fraction bits, which is set in the `mant` of all but the smallest numbers.
-/
def leadingBit : Nat := 0x10000000000000

/-- The parts of a number, from the sign bit, the eleven exponent bits and the fraction bits. -/
def of (x : Float) : Parts :=
  let bits := x.toBits.toNat
  let neg := bits >>> 63 == 1
  let field := (bits >>> 52) % 0x800
  let fraction := bits % leadingBit
  if field = 2047 then (if fraction = 0 then infinite neg else nan)
  else if field = 0 then finite neg fraction (-1074)
  else finite neg (leadingBit + fraction) ((field : Int) - 1075)

/-- The number with the value `mant · 2 ^ exp`, negated if `neg`, for a `mant` below `2 ^ 53` and an
`exp` of at least `-1074` whose product is below `2 ^ 1024`. -/
def exact (neg : Bool) (mant : Nat) (exp : Int) : Float :=
  let shift := min (52 - mant.log2) (exp + 1074).toNat
  let mant := mant <<< shift
  let exp := exp - shift
  let magnitude := if mant < leadingBit then mant else (exp + 1074).toNat * leadingBit + mant
  Float.ofBits ((if neg then 1 <<< 63 else 0) + magnitude).toUInt64

end Parts

namespace Number

/-- A number without its fraction. -/
def trunc (x : Float) : Float :=
  match Parts.of x with
  | .finite neg mant exp => if 0 ≤ exp then x else Parts.exact neg (mant >>> (-exp).toNat) 0
  | _ => x

/-- Whether the sign of a number is negative, that of zero included. -/
def isNegative (x : Float) : Bool :=
  match Parts.of x with
  | .finite neg _ _ => neg
  | .infinite neg => neg
  | .nan => false

/-- The remainder of the division of `x` by `y` toward zero. It is exact and has the sign of `x`. -/
def remainder (x y : Float) : Float :=
  match Parts.of x, Parts.of y with
  | .finite neg m p, .finite _ n q =>
    if n = 0 then 0 / 0
    else
      let unit := min p q
      Parts.exact neg ((m <<< (p - unit).toNat) % (n <<< (q - unit).toNat)) unit
  | .finite .., .infinite _ => x
  | _, _ => 0 / 0

/-- The remainder of the division of `x` by `y` that is not negative. -/
def remEuclid (x y : Float) : Float :=
  let r := remainder x y
  if r < 0 then r + y.abs else r

end Number

end DeltaForm
