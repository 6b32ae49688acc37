import DeltaForm.Number.Base
import DeltaForm.Text.Visible

/-!
# Quoted text

A text is quoted between double quotes. Quotes, backslashes, newlines, carriage returns, tabs and
NUL have short escapes; of the other characters those that are `shown` stand for themselves and the
rest are written `\u{…}` with their code point in hexadecimal.

Two sets of shown characters are in use: string literals of the language escape the control
characters only (`Quoted.literal`), texts in results escape all that is not visible
(`Quoted.display`). `Quoted.decode` reads the text between the quotes of a literal.
-/

namespace DeltaForm

/-- Whether a character is a control character (general category `Cc`). -/
def isControl (c : Char) : Bool :=
  c.toNat < 0x20 || (0x7f ≤ c.toNat && c.toNat < 0xa0)

namespace Quoted

/-- The letter that stands for a character after a backslash. -/
def short? (c : Char) : Option Char :=
  match c with
  | '"' => some '"'
  | '\\' => some '\\'
  | '\n' => some 'n'
  | '\r' => some 'r'
  | '\t' => some 't'
  | '\x00' => some '0'
  | _ => none

/-- One character inside quotes. -/
def escape (shown : Char → Bool) (c : Char) : List Char :=
  match short? c with
  | some letter => ['\\', letter]
  | none =>
    if shown c then [c]
    else '\\' :: 'u' :: '\x7b' :: Nat.toDigits 16 c.toNat ++ ['\x7d']

/-- A text in quotes. -/
def encode (shown : Char → Bool) (s : List Char) : List Char :=
  '"' :: s.flatMap (escape shown) ++ ['"']

/-- A text as a string literal of the language. -/
def literal (s : String) : List Char := encode (fun c => !isControl c) s.toList

/-- A text as results show it. -/
def display (s : String) : String := String.ofList (encode isVisible s.toList)

/-! ### Reading a literal -/

/-- The character that a letter stands for after a backslash. -/
def meaning? (letter : Char) : Option Char :=
  match letter with
  | 'n' => some '\n'
  | 'r' => some '\r'
  | 't' => some '\t'
  | '\\' => some '\\'
  | '0' => some '\x00'
  | '\'' => some '\''
  | '"' => some '"'
  | _ => none

/-- What has been read of an escape. -/
inductive Progress
  /-- Nothing: the next character stands for itself or starts an escape. -/
  | plain
  /-- The backslash. -/
  | slash
  /-- The backslash and `u`. -/
  | unicode
  /-- The opening brace after `u` and `count` digits of the code point, with their value. -/
  | code (count value : Nat)
  deriving DecidableEq, Repr

/-- Reads the text between the quotes of a literal. An escape is a backslash and one of the letters
of `meaning?`, or `\u{…}` with one to six hexadecimal digits that name a character; any other
backslash is refused. -/
def decodeFrom : Progress → List Char → Option (List Char)
  | .plain, [] => some []
  | _, [] => none
  | .plain, c :: cs =>
    if c = '\\' then decodeFrom .slash cs else (decodeFrom .plain cs).map (c :: ·)
  | .slash, c :: cs =>
    match meaning? c with
    | some d => (decodeFrom .plain cs).map (d :: ·)
    | none => if c = 'u' then decodeFrom .unicode cs else none
  | .unicode, c :: cs => if c = '\x7b' then decodeFrom (.code 0 0) cs else none
  | .code count value, c :: cs =>
    if c = '\x7d' then
      if 0 < count && Nat.isValidChar value then
        (decodeFrom .plain cs).map (Char.ofNat value :: ·)
      else none
    else if isHexDigit c && count < 6 then
      decodeFrom (.code (count + 1) (16 * value + digitValue c)) cs
    else none

/-- Reads the text between the quotes of a literal. -/
def decode (cs : List Char) : Option (List Char) := decodeFrom .plain cs

end Quoted

end DeltaForm
