import DeltaForm.Diagnostic
import DeltaForm.Token
import DeltaForm.Text.Letter

/-!
# Reading tokens

A source text is cut into pieces: blanks, comments, tokens and faults. `Lexer.piece` says what the
text at a place starts with and how far it reaches; the longest token wins, and a reserved word wins
over a name of the same spelling, unless a name could go on with the byte after it. `Lexer.pieces`
repeats this to the end of the text, so the pieces tile the source. `tokenize` keeps the tokens and
the faults, and stops after twenty faults.
-/

namespace DeltaForm

/-- What can be wrong with a source text before it is parsed. -/
inductive LexFault
  /-- A character that starts no token. A quote is one if its string does not end on its line. -/
  | unexpected (c : Char)
  /-- A block comment that does not end. -/
  | openComment
  /-- A number with a base mark and no digits, or of `2 ^ 64` or more. -/
  | badNumber
  /-- A string with an escape that means nothing. -/
  | badEscape
  deriving DecidableEq, Repr

namespace LexFault

/-- What is wrong. -/
def message : LexFault → String
  | unexpected c => "Unexpected character '" ++ c.toString ++ "'"
  | openComment => "Unterminated block comment"
  | badNumber => "Invalid number"
  | badEscape => "Invalid escape sequence"

/-- What to do about it. -/
def hint : LexFault → Option String
  | unexpected c =>
    if c = '"' || c = '\'' then some "strings must close on the same line"
    else if c = '\x60' then some "template literals are not part of lambda form"
    else none
  | openComment => some "close the comment with '*/'"
  | badNumber => none
  | badEscape => some "Valid: \\n \\r \\t \\\\ \\0 \\' \\\" \\u\x7b...\x7d"

/-- The part of a faulty piece that messages point at: the first character, except that a comment or
a number is marked as a whole. -/
def place (piece : Span) : LexFault → Span
  | unexpected c => ⟨piece.start, piece.start + c.utf8Size⟩
  | openComment => piece
  | badNumber => piece
  | badEscape => ⟨piece.start, piece.start + 1⟩

/-- The message about a faulty piece. -/
def diagnostic (piece : Span) (f : LexFault) : Diagnostic := ⟨f.place piece, f.message, f.hint⟩

end LexFault

namespace Lexer

/-- What stands at a place of the source. -/
inductive Piece
  /-- A blank or a comment. -/
  | gap
  /-- A token. -/
  | token (t : Token)
  /-- A fault. -/
  | fault (f : LexFault)
  deriving Repr

/-! ### Gaps -/

/-- Whether a character only separates tokens. -/
def isSpace (c : Char) : Bool :=
  c = ' ' || c = '\t' || c = '\r' || c = '\n' || c = '\x0c'

/-- The number of characters up to and including the end mark of a block comment. -/
def commentLength? : List Char → Option Nat
  | '*' :: '/' :: _ => some 2
  | _ :: cs => (commentLength? cs).map (· + 1)
  | [] => none

/-! ### Numbers -/

/-- Whether a character may stand among the digits of a number. -/
def isDigitOrLine (c : Char) : Bool := c.isDigit || c = '_'

/-- The base and the run of digits of a number with a base mark, if a text starts with one. -/
def based? (cs : List Char) : Option (Base × List Char) :=
  match cs with
  | '0' :: mark :: rest =>
    (Base.ofMark? mark).bind fun base =>
      let run := rest.takeWhile fun c => base.isDigit c || c = '_'
      if run.isEmpty then none else some (base, run)
  | _ => none

/-- The length of an exponent that a text starts with, or zero. -/
def exponentLength (cs : List Char) : Nat :=
  match cs with
  | mark :: rest =>
    if mark = 'e' || mark = 'E' then
      let sign := match rest with
        | '+' :: _ => 1
        | '-' :: _ => 1
        | _ => 0
      let digits := ((rest.drop sign).takeWhile Char.isDigit).length
      if digits = 0 then 0 else 1 + sign + digits
    else 0
  | [] => 0

/-- The length of a point with digits after it that a text starts with, or zero. -/
def fractionLength (cs : List Char) : Nat :=
  match cs with
  | '.' :: d :: rest =>
    if d.isDigit then 2 + (rest.takeWhile isDigitOrLine).length else 0
  | _ => 0

/-- The length of the decimal number that a text starts with: digits, a fraction and an exponent,
each of which may be missing. -/
def decimalLength (cs : List Char) : Nat :=
  let whole := (cs.takeWhile isDigitOrLine).length
  let fraction := fractionLength (cs.drop whole)
  whole + fraction + exponentLength (cs.drop (whole + fraction))

/-- The value of the digits after a base mark. -/
def basedNumber (base : Base) (run : List Char) : Piece :=
  match base.read? (run.filter (· ≠ '_')) with
  | some v => .token (.number v)
  | none => .fault .badNumber

/-- The value of a decimal number. -/
def decimalNumber (lexeme : List Char) : Piece :=
  match Decimal.read? (lexeme.filter (· ≠ '_')) with
  | some d => .token (.number d.toFloat)
  | none => .fault .badNumber

/-! ### Strings -/

/-- Whether a text is the start of the code of a `\u{…}` escape that breaks off where one more digit
could follow: a brace, fewer than six hexadecimal digits and then the end of the line. -/
def breaksOffInCode (cs : List Char) : Bool :=
  match cs with
  | '\x7b' :: rest =>
    (rest.takeWhile isHexDigit).length < 6 && (rest.dropWhile isHexDigit).head?.all (· = '\n')
  | _ => false

/-- How far the string after its opening quote reaches: the number of characters up to and including
the closing quote, or the number of characters before the place where it cannot go on. That is the
end of the line, but if the line breaks off in the code of an escape, the string stops at the
backslash and the rest of the line is read as tokens. -/
def stringLength (quote : Char) : List Char → Bool × Nat
  | [] => (false, 0)
  | '\\' :: c :: cs =>
    if c = '\n' || (c = 'u' && breaksOffInCode cs) then (false, 1)
    else let (closed, n) := stringLength quote cs; (closed, n + 2)
  | c :: cs =>
    if c = quote then (true, 1)
    else if c = '\n' then (false, 0)
    else let (closed, n) := stringLength quote cs; (closed, n + 1)

/-- The string between two quotes. -/
def stringToken (body : List Char) : Piece :=
  match Quoted.decode body with
  | some s => .token (.string (String.ofList s))
  | none => .fault .badEscape

/-! ### Pieces -/

/-- Whether a name can start with a character. -/
def isNameStart (c : Char) : Bool := isLetter c || c = '_' || c = '$'

/-- Whether a name can go on with a character. -/
def isNamePart (c : Char) : Bool := isNameStart c || isNumeral c

/-- Whether a character beyond ASCII has the first byte of one that a name can go on with. -/
def startsLikeNamePart (c : Char) : Bool := letterRanges.hasLead c || numeralRanges.hasLead c

/-- The token of a word before `rest`, which no longer belongs to it. The first byte of `rest` tells
whether the word is complete: if a name could go on with it, the word is not taken as reserved. -/
def wordToken (word rest : List Char) : Token :=
  if (rest.head?.map startsLikeNamePart).getD false then .name (String.ofList word)
  else .ofWord (String.ofList word)

/-- Whether a number starts here: a digit, or a point and a digit. -/
def startsNumber (c : Char) (cs : List Char) : Bool :=
  c.isDigit || (c = '.' && (cs.head?.map Char.isDigit).getD false)

/-- The piece that starts with the character `c` before `cs`, and how many characters of `cs` it
takes. -/
def piece (c : Char) (cs : List Char) : Piece × Nat :=
  if isSpace c then (.gap, 0)
  else if c = '/' && cs.head? = some '/' then (.gap, (cs.takeWhile (· ≠ '\n')).length)
  else if c = '/' && cs.head? = some '*' then
    match commentLength? (cs.drop 1) with
    | some n => (.gap, n + 1)
    | none => (.fault .openComment, cs.length)
  else if c = '"' || c = '\'' then
    match stringLength c cs with
    | (true, n) => (stringToken (cs.take (n - 1)), n)
    | (false, n) => (.fault (.unexpected c), n)
  else if startsNumber c cs then
    match based? (c :: cs) with
    | some (base, run) => (basedNumber base run, run.length + 1)
    | none =>
      let n := decimalLength (c :: cs)
      (decimalNumber ((c :: cs).take n), n - 1)
  else if isNameStart c then
    let more := cs.takeWhile isNamePart
    (.token (wordToken (c :: more) (cs.dropWhile isNamePart)), more.length)
  else
    match Mark.longest? (c :: cs) with
    | some m => (.token (.mark m), m.text.length - 1)
    | none => (.fault (.unexpected c), 0)

/-- The pieces of a text that starts at a byte offset, with their places. -/
def pieces (offset : Nat) (cs : List Char) : List (Piece × Span) :=
  match cs with
  | [] => []
  | c :: cs =>
    let (p, n) := piece c cs
    let stop := offset + byteLength (c :: cs.take n)
    (p, ⟨offset, stop⟩) :: pieces stop (cs.drop n)
termination_by cs.length
decreasing_by simp only [List.length_drop, List.length_cons]; omega

/-- The most faults that are reported. -/
def faultLimit : Nat := 20

/-- The pieces up to and including a number of faults. -/
def upToFaults : Nat → List (Piece × Span) → List (Piece × Span)
  | 0, _ => []
  | _, [] => []
  | n + 1, (.fault f, s) :: ps => (.fault f, s) :: upToFaults n ps
  | n + 1, p :: ps => p :: upToFaults (n + 1) ps

end Lexer

/-- The tokens of a source, and what is wrong with it. -/
structure Tokens where
  /-- The tokens; the last one, and no other, is the end of the input. -/
  lexemes : List Lexeme
  /-- The faults. -/
  faults : List Diagnostic

/-- Reads the tokens of a source text. -/
def tokenize (source : String) : Tokens :=
  let cs := source.toList
  let ps := Lexer.upToFaults Lexer.faultLimit (Lexer.pieces 0 cs)
  let last := byteLength cs
  { lexemes := ps.filterMap (fun
      | (.token t, s) => some ⟨t, s⟩
      | _ => none) ++ [⟨.eof, ⟨last, last⟩⟩]
    faults := ps.filterMap fun
      | (.fault f, s) => some (f.diagnostic s)
      | _ => none }

end DeltaForm
