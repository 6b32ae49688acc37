/-!
# Colours

Parts of the output are painted for terminals: a text is put between a sequence that selects its
look and one that resets it. Without colours the texts stand as they are.
-/

namespace DeltaForm

/-- The colours in use, by their terminal codes. -/
inductive Colour
  | red | green | yellow | blue | magenta | cyan
  deriving DecidableEq, Repr

/-- The terminal code of a colour. -/
def Colour.code : Colour → String
  | red => "31"
  | green => "32"
  | yellow => "33"
  | blue => "34"
  | magenta => "35"
  | cyan => "36"

/-- How a text looks. -/
inductive Look
  | plain (colour : Colour)
  | bold (colour : Colour)
  | dimmed
  deriving DecidableEq, Repr

/-- The terminal codes of a look. -/
def Look.codes : Look → String
  | plain c => c.code
  | bold c => "1;" ++ c.code
  | dimmed => "2"

/-- Whether output is painted. -/
structure Palette where
  /-- Whether there are colours. -/
  coloured : Bool

namespace Palette

variable (p : Palette)

/-- A text with a look. -/
def paint (look : Look) (text : String) : String :=
  if p.coloured then "\x1b[" ++ look.codes ++ "m" ++ text ++ "\x1b[0m" else text

/-- The word that starts an error. -/
def errorLabel : String := p.paint (.bold .red) "error"

/-- The bar at the left of a quoted line. -/
def bar : String := p.paint (.plain .blue) "|"

/-- A hint, with its label. -/
def hint (text : String) : String :=
  "   " ++ p.paint (.plain .cyan) "=" ++ " " ++ p.paint (.plain .cyan) "hint" ++ ": " ++
    p.paint .dimmed text ++ "\n"

/-- A line between two rules. -/
def banner (look : Look) (text : String) : String :=
  p.paint .dimmed "===" ++ " " ++ p.paint look text ++ " " ++ p.paint .dimmed "===" ++ "\n"

/-- The banner after a phase without errors. -/
def passed (phase : String) : String := p.banner (.bold .green) (phase ++ " OK")

/-- The banner after a phase with errors. -/
def failed (phase : String) (count : Nat) : String :=
  let errors := if count = 1 then " error" else " errors"
  p.banner (.bold .red) (phase ++ " FAILED: " ++ toString count ++ errors)

end Palette

end DeltaForm
