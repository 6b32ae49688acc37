import DeltaForm.Number.Base
import DeltaForm.Number.Parts

/-!
# Decimal numerals

`Decimal.toFloat` is the number nearest to a decimal, with ties to the even neighbour, and
`Decimal.read?` reads one from text: digits with an optional point and an optional exponent.

`Decimal.shortest` goes the other way. Among the decimals that read back as a given number it takes
the fewest digits, and of those the nearest one, the larger when two are equally near: for each
count of digits it tries the two neighbours of the number on that grid.
-/

namespace DeltaForm

/-- The value `digits · 10 ^ exp`. -/
structure Decimal where
  /-- The digits, as a natural number. -/
  digits : Nat
  /-- The power of ten they are scaled by. -/
  exp : Int
  deriving DecidableEq, Repr

namespace Decimal

/-- The number of decimal digits of a natural number; zero has one. -/
def width (n : Nat) : Nat := (Nat.toDigits 10 n).length

/-- The number nearest to a decimal. A decimal of `10 ^ 400` or more is beyond every finite number,
and one below `10 ^ (-400)` is nearest to zero. -/
def toFloat (d : Decimal) : Float :=
  let scale := d.exp + width d.digits
  if d.digits = 0 then 0
  else if 400 < scale then 1 / 0
  else if scale < -400 then 0
  else Float.ofScientific d.digits (d.exp < 0) d.exp.natAbs

/-! ### Reading -/

/-- The digits after an exponent mark, with an optional sign. -/
def exponent? (cs : List Char) : Option Int :=
  match cs with
  | [] => some 0
  | mark :: cs =>
    if mark = 'e' || mark = 'E' then
      match cs with
      | '-' :: ds => (natural? ds).map fun n => -(n : Int)
      | '+' :: ds => (natural? ds).map fun n => (n : Int)
      | ds => (natural? ds).map fun n => (n : Int)
    else none
where
  /-- A row of digits, not empty. -/
  natural? (ds : List Char) : Option Nat :=
    if !ds.isEmpty && ds.all Char.isDigit then some (digitsValue 10 ds) else none

/-- Reads digits with an optional point among, before or after them and an optional exponent. -/
def read? (cs : List Char) : Option Decimal :=
  let whole := cs.takeWhile Char.isDigit
  let rest := cs.dropWhile Char.isDigit
  let (fraction, rest) := match rest with
    | '.' :: r => (r.takeWhile Char.isDigit, r.dropWhile Char.isDigit)
    | r => ([], r)
  if whole.isEmpty && fraction.isEmpty then none
  else (exponent? rest).map fun e => ⟨digitsValue 10 (whole ++ fraction), e - fraction.length⟩

/-! ### The shortest decimal -/

/-- The exponent `p` of the leading digit of `num / den`: `10 ^ p ≤ num / den < 10 ^ (p + 1)`. -/
def magnitude (num den : Nat) : Int :=
  if den ≤ num then (width (num / den) : Int) - 1
  else
    let w := width (den / num)
    if den ≤ num * Nat.pow 10 (w - 1) then 1 - (w : Int) else -(w : Int)

/-- The decimal on the grid of `count` digits that is nearest to `num / den` among its two
neighbours there that read back as `x`. -/
def onGrid? (x : Float) (num den : Nat) (count : Nat) : Option Decimal :=
  let unit := magnitude num den - count + 1
  let num := num * Nat.pow 10 (-unit).toNat
  let den := den * Nat.pow 10 unit.toNat
  let below : Decimal := ⟨num / den, unit⟩
  let above : Decimal := ⟨num / den + 1, unit⟩
  let down := below.toFloat == x
  let up := above.toFloat == x
  if up && (!down || den ≤ 2 * (num % den)) then some above
  else if down then some below
  else none

/-- A decimal without the zeros at the end of its digits, at most `fuel` of them. -/
def strip (fuel : Nat) (d : Decimal) : Decimal :=
  match fuel with
  | 0 => d
  | fuel + 1 => if d.digits % 10 = 0 then strip fuel ⟨d.digits / 10, d.exp + 1⟩ else d

/-- The value `mant · 2 ^ exp` written out in full. -/
def inFull (mant : Nat) (exp : Int) : Decimal :=
  if 0 ≤ exp then ⟨mant <<< exp.toNat, 0⟩ else ⟨mant * Nat.pow 5 (-exp).toNat, exp⟩

/-- The shortest decimal that reads back as the positive number `x` of value `mant · 2 ^ exp`.
Seventeen digits are enough for every number. -/
def shortest (x : Float) (mant : Nat) (exp : Int) : Decimal :=
  let num := mant <<< exp.toNat
  let den := 1 <<< (-exp).toNat
  match (List.range' 1 17).findSome? (onGrid? x num den) with
  | some d => strip 17 d
  | none => inFull mant exp

end Decimal

end DeltaForm
