import DeltaForm.Number.Base
import DeltaForm.Run

/-!
# JSON documents

A reader of JSON documents, and the values that they stand for. The fields of an object come in the
order of their names, and the last of several fields with one name counts. Containers are nested 127
deep at most.

The digits of a number are taken as long as they fit into 64 bits, rounded to a double, and then
scaled by a power of ten; a number beyond all doubles is refused.
-/

namespace DeltaForm

/-- A JSON document. -/
inductive Json
  | null
  | bool (value : Bool)
  | number (value : Float)
  | string (value : String)
  | array (items : List Json)
  | object (fields : List (String × Json))
  deriving Inhabited

namespace Json

/-- The text without the blanks that it starts with. -/
def skip (cs : List Char) : List Char :=
  cs.dropWhile fun c => c = ' ' || c = '\n' || c = '\t' || c = '\r'

/-! ### Numbers -/

/-- A power of ten, for an exponent of at most 308. -/
def powerOfTen (e : Nat) : Float := Float.ofScientific 1 false e

/-- Divides by a power of ten, in steps that are powers themselves. -/
def shrink (x : Float) (e : Nat) : Float :=
  if e ≤ 308 then x / powerOfTen e
  else if x == 0 then x
  else shrink (x / powerOfTen 308) (e - 308)
termination_by e

/-- The number `digits · 10 ^ exp`, unless it is beyond all doubles. -/
def scale? (digits : Nat) (exp : Int) : Option Float :=
  let x := Float.ofNat digits
  if exp < 0 then some (shrink x exp.natAbs)
  else if 308 < exp then (if digits = 0 then some x else none)
  else
    let y := x * powerOfTen exp.toNat
    if y.isInf then none else some y

/-- What has been read of a number: the digits that fit, the power of ten that they are scaled by,
and whether no more of them fit. -/
structure Digits where
  /-- The digits. -/
  digits : Nat
  /-- The power of ten. -/
  exp : Int
  /-- Whether no more digits fit. -/
  full : Bool

/-- Whether a further digit fits into 64 bits. -/
def Digits.fits (n : Digits) (c : Char) : Bool :=
  !n.full && n.digits * 10 + digitValue c < wordLimit

/-- Takes a digit before the point. -/
def Digits.whole (n : Digits) (c : Char) : Digits :=
  if n.fits c then { n with digits := n.digits * 10 + digitValue c }
  else { n with exp := n.exp + 1, full := true }

/-- Takes a digit after the point. -/
def Digits.fraction (n : Digits) (c : Char) : Digits :=
  if n.fits c then { n with digits := n.digits * 10 + digitValue c, exp := n.exp - 1 }
  else { n with full := true }

/-- The exponent of a number, if it has one, and the text after it. -/
def exponent? (cs : List Char) : Option (Int × List Char) :=
  match cs with
  | mark :: rest =>
    if mark = 'e' || mark = 'E' then
      let (negative, rest) := match rest with
        | '-' :: rest => (true, rest)
        | '+' :: rest => (false, rest)
        | rest => (false, rest)
      let ds := rest.takeWhile Char.isDigit
      if ds.isEmpty then none
      else
        let n : Int := digitsValue 10 ds
        some (if negative then -n else n, rest.dropWhile Char.isDigit)
    else some (0, cs)
  | [] => some (0, [])

/-- Reads a number without a sign. -/
def unsigned? (cs : List Char) : Option (Float × List Char) := do
  let ds := cs.takeWhile Char.isDigit
  let rest := cs.dropWhile Char.isDigit
  if ds.isEmpty || (ds.head? = some '0' && 1 < ds.length) then none
  else
    let n := ds.foldl Digits.whole ⟨0, 0, false⟩
    let (n, rest) ← match rest with
      | '.' :: rest =>
        let ds := rest.takeWhile Char.isDigit
        if ds.isEmpty then none
        else some (ds.foldl Digits.fraction { n with full := false }, rest.dropWhile Char.isDigit)
      | rest => some (n, rest)
    let (e, rest) ← exponent? rest
    let x ← scale? n.digits (n.exp + e)
    some (x, rest)

/-- Reads a number. -/
def number? (cs : List Char) : Option (Float × List Char) :=
  match cs with
  | '-' :: cs => (unsigned? cs).map fun r => (-r.1, r.2)
  | cs => unsigned? cs

/-! ### Strings -/

/-- Reads four hexadecimal digits. -/
def hex4? : List Char → Option (Nat × List Char)
  | a :: b :: c :: d :: rest =>
    if [a, b, c, d].all isHexDigit then some (digitsValue 16 [a, b, c, d], rest) else none
  | _ => none

/-- Reads the code point of an escape after `\u`: four digits, or two times four for a pair of
surrogates. -/
def codePoint? (cs : List Char) : Option (Char × List Char) := do
  let (n, rest) ← hex4? cs
  if 0xd800 ≤ n && n < 0xdc00 then
    match rest with
    | '\\' :: 'u' :: rest =>
      let (m, rest) ← hex4? rest
      if 0xdc00 ≤ m && m < 0xe000 then
        some (Char.ofNat (0x10000 + (n - 0xd800) * 0x400 + (m - 0xdc00)), rest)
      else none
    | _ => none
  else if 0xdc00 ≤ n && n < 0xe000 then none
  else some (Char.ofNat n, rest)

/-- The character that a letter stands for after a backslash. -/
def escape? (letter : Char) : Option Char :=
  match letter with
  | '"' => some '"'
  | '\\' => some '\\'
  | '/' => some '/'
  | 'b' => some '\x08'
  | 'f' => some '\x0c'
  | 'n' => some '\n'
  | 'r' => some '\r'
  | 't' => some '\t'
  | _ => none

/-- Reads a string after its opening quote. -/
def chars? (fuel : Nat) (cs : List Char) : Option (List Char × List Char) :=
  match fuel with
  | 0 => none
  | fuel + 1 =>
    match cs with
    | [] => none
    | '"' :: rest => some ([], rest)
    | '\\' :: 'u' :: rest => do
      let (c, rest) ← codePoint? rest
      let (s, rest) ← chars? fuel rest
      some (c :: s, rest)
    | '\\' :: letter :: rest => do
      let c ← escape? letter
      let (s, rest) ← chars? fuel rest
      some (c :: s, rest)
    | c :: rest =>
      if c.toNat < 0x20 || c = '\\' then none
      else do
        let (s, rest) ← chars? fuel rest
        some (c :: s, rest)

/-- Reads a string after its opening quote. -/
def string? (cs : List Char) : Option (String × List Char) :=
  (chars? (cs.length + 1) cs).map fun r => (String.ofList r.1, r.2)

/-! ### Documents -/

/-- Puts a field among fields in the order of their names, in the place of one with the same name.
-/
def putField (name : String) (v : Json) : List (String × Json) → List (String × Json)
  | [] => [(name, v)]
  | (n, w) :: fs =>
    if name = n then (name, v) :: fs
    else if name < n then (name, v) :: (n, w) :: fs
    else (n, w) :: putField name v fs

mutual

/-- Reads a value with at most `depth` levels of containers. -/
def value? (fuel depth : Nat) (cs : List Char) : Option (Json × List Char) :=
  match fuel with
  | 0 => none
  | fuel + 1 =>
    match skip cs with
    | 'n' :: 'u' :: 'l' :: 'l' :: rest => some (null, rest)
    | 't' :: 'r' :: 'u' :: 'e' :: rest => some (bool true, rest)
    | 'f' :: 'a' :: 'l' :: 's' :: 'e' :: rest => some (bool false, rest)
    | '"' :: rest => (string? rest).map fun r => (string r.1, r.2)
    | '[' :: rest =>
      match depth with
      | 0 => none
      | depth + 1 =>
        match skip rest with
        | ']' :: rest => some (array [], rest)
        | rest => (items? fuel depth rest).map fun r => (array r.1, r.2)
    | '\x7b' :: rest =>
      match depth with
      | 0 => none
      | depth + 1 =>
        match skip rest with
        | '\x7d' :: rest => some (object [], rest)
        | rest => (fields? fuel depth [] rest).map fun r => (object r.1, r.2)
    | cs => (number? cs).map fun r => (number r.1, r.2)

/-- Reads the items of an array up to its end. -/
def items? (fuel depth : Nat) (cs : List Char) : Option (List Json × List Char) :=
  match fuel with
  | 0 => none
  | fuel + 1 => do
    let (v, rest) ← value? fuel depth cs
    match skip rest with
    | ',' :: rest =>
      let (vs, rest) ← items? fuel depth rest
      some (v :: vs, rest)
    | ']' :: rest => some ([v], rest)
    | _ => none

/-- Reads the fields of an object up to its end and adds them to `fields`. -/
def fields? (fuel depth : Nat) (fields : List (String × Json)) (cs : List Char) :
    Option (List (String × Json) × List Char) :=
  match fuel with
  | 0 => none
  | fuel + 1 =>
    match skip cs with
    | '"' :: rest => do
      let (name, rest) ← string? rest
      match skip rest with
      | ':' :: rest =>
        let (v, rest) ← value? fuel depth rest
        let fields := putField name v fields
        match skip rest with
        | ',' :: rest => fields? fuel depth fields rest
        | '\x7d' :: rest => some (fields, rest)
        | _ => none
      | _ => none
    | _ => none

end

/-- The most levels of containers. -/
def depthLimit : Nat := 127

/-- Reads a document. -/
def read? (s : String) : Option Json :=
  let cs := s.toList
  match value? (2 * cs.length + 2) depthLimit cs with
  | some (v, rest) => if (skip rest).isEmpty then some v else none
  | none => none

/-! ### Values -/

mutual

/-- The value of a document. -/
def toValue : Json → Run Value
  | null => pure .null
  | bool b => pure (.bool b)
  | number x => pure (.number x)
  | string s => pure (.string s)
  | array vs => do
    let vs ← toValues vs
    Run.fresh (.array · vs)
  | object fs => do
    let fs ← toFields fs
    Run.fresh (.object · fs)

/-- The values of documents. -/
def toValues : List Json → Run (List Value)
  | [] => pure []
  | v :: vs => do
    let v ← toValue v
    let vs ← toValues vs
    pure (v :: vs)

/-- The values of fields. -/
def toFields : List (String × Json) → Run (List (String × Value))
  | [] => pure []
  | (k, v) :: fs => do
    let v ← toValue v
    let fs ← toFields fs
    pure ((k, v) :: fs)

end

/-- The function with a name that looks its argument up in a document. -/
def toLookup (name : String) (table : Json) : Run Value := do
  let table ← table.toValue
  Run.fresh (.native · (.lookup name table))

end Json

end DeltaForm
