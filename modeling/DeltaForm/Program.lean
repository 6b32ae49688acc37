import DeltaForm.Eval
import DeltaForm.Expr.Free
import DeltaForm.Expr.Parser
import DeltaForm.Expr.Printer
import DeltaForm.Lifting
import DeltaForm.Token.Lexer

/-!
# Programs

A program is compiled from a source text: the text is parsed, its free names are collected, and its
tree is lifted. The result has the namespace and the free names as its parameters. `Program.invoke`
runs it with values for the free names, and `resolve` then runs the calls that its result describes.
-/

namespace DeltaForm

/-- Reads one expression from a source text. A fault in a token keeps it from being parsed. -/
def parseSource (source : String) : Parsed :=
  let tokens := tokenize source
  if tokens.faults.isEmpty then parseTokens tokens.lexemes else ⟨none, tokens.faults⟩

/-- Why a source text is no program that can be run. -/
inductive CompileFault
  /-- It cannot be read. -/
  | unreadable (faults : List Diagnostic)
  /-- It is not in lambda form. -/
  | form (f : FormFault)
  /-- The type of a conditional cannot be found. -/
  | undecidable (u : Undecidable)
  /-- Free names have no values, and all of them should. -/
  | missing (names : List String)
  deriving DecidableEq, Repr

/-- What is wrong. -/
def CompileFault.message : CompileFault → String
  | unreadable faults => "could not parse the source (" ++ toString faults.length ++ " error(s))"
  | form f => f.message
  | undecidable u => u.message
  | missing names => "no binding for free variable(s): " ++ ", ".intercalate names

/-- A compiled program. -/
structure Program where
  /-- The name under which the program reaches the runtime. -/
  ns : String
  /-- The free names, in the order of their first use. -/
  free : List String
  /-- The type of the body. -/
  ty : Ty
  /-- The lifted tree. -/
  body : Expr

namespace Program

/-- The tree of a source text, if nothing is wrong with it. -/
def read (source : String) : Except CompileFault Expr :=
  match parseSource source with
  | ⟨some e, []⟩ => .ok e
  | p => .error (.unreadable p.faults)

/-- The declared symbols, and the name of the program if it is a function with one. -/
def scope (symbols : Symbols) : Expr → Symbols
  | .function _ (some name) _ _ _ => symbols.insert name
  | _ => symbols

/-- Compiles a source text, in which the declared symbols are bound. -/
def compile (ns : String) (symbols : Symbols) (source : String) : Except CompileFault Program := do
  let e ← read source
  let normalized ← (e.normalize ns (scope symbols e)).mapError .form
  let lifted ← (normalized.expr.lift ns).mapError .undecidable
  .ok ⟨ns, normalized.free.names, lifted.ty, lifted.expr⟩

variable (p : Program)

/-- The program as source text. -/
def code : String := "return " ++ p.body.print p.ns

/-- The parameters: the namespace and the free names. -/
def parameters : List String := p.ns :: p.free

/-- The free names without a value. -/
def missing (values : Entries Value) : List String := p.free.filter fun name => !values.has name

/-- In strict mode, checks that all free names have values. -/
def check (strict : Bool) (values : Entries Value) : Except CompileFault Unit :=
  let names := p.missing values
  if strict && !names.isEmpty then .error (.missing names) else .ok ()

/-- The values of the free names that have one. -/
def bindings (values : Entries Value) : List (String × Value) :=
  p.free.filterMap fun name => (values.get? name).map (name, ·)

/-- Runs a program to a depth. A free name without a value is a fault only if it is read. -/
def invoke (depth : Nat) (values : Entries Value) : Run Value := do
  let runtime ← namespaceObject
  eval depth (Env.extend [] ((p.ns, runtime) :: p.bindings values)) p.body

/-- Runs a program and the calls that its result describes, to a depth. -/
def run (depth : Nat) (values : Entries Value) : Run Value := do
  let v ← p.invoke depth values
  resolve depth v

end Program

end DeltaForm
