import DeltaForm.Command.Arguments
import DeltaForm.Command.Paint
import DeltaForm.Lines
import DeltaForm.Program

/-!
# The command line

What the command line tool answers to its arguments: an exit code and what goes to the two outputs.
The contents of files are given by a function, so that an answer depends on nothing else.
-/

namespace DeltaForm

/-- An exit code and the texts for the two outputs. -/
structure Response where
  /-- The exit code. -/
  code : Nat
  /-- The text for the standard output. -/
  out : String
  /-- The text for the error output. -/
  err : String

namespace Command

/-- The name and version of the tool. -/
def version : String := "cause 0.1.0\n"

/-- How the tool is called. -/
def usage : String :=
  "Usage: cause [--namespace NAME] [--symbol NAME] [--strict] lex|parse|compile|run|spawn ...\n"

/-- The response to a success. -/
def success (out : String) : Response := ⟨0, out, ""⟩

/-- The response to a failure. -/
def failure (err : String) : Response := ⟨1, "", err⟩

/-- A number, right-aligned in a field. -/
def alignRight (width n : Nat) : String :=
  let digits := toString n
  String.ofList (List.replicate (width - digits.length) ' ') ++ digits

/-- A number, left-aligned in a field. -/
def alignLeft (width n : Nat) : String :=
  let digits := toString n
  digits ++ String.ofList (List.replicate (width - digits.length) ' ')

variable (p : Palette)

/-- A message about a place in a source, with its line. -/
def report (source : String) (d : Diagnostic) : String :=
  let lines := Lines.ofSource source
  let place := lines.locate d.span.start
  let line := (lines.text? source place.line).getD ""
  "\n" ++ p.errorLabel ++ ": " ++ d.message ++ "\n" ++
    "  " ++ p.paint (.plain .blue) "-->" ++ " line " ++ toString place.line ++ ":" ++
    toString place.column ++ "\n" ++
    "   " ++ p.bar ++ "\n" ++
    p.paint (.bold .blue) (alignRight 3 place.line) ++ p.bar ++ " " ++ line ++ "\n" ++
    "   " ++ p.bar ++ " " ++ String.ofList (List.replicate (place.column - 1) ' ') ++
    p.paint (.bold .red) "^" ++ "\n" ++
    match d.hint with
    | some hint => "   " ++ p.bar ++ "\n" ++ p.hint hint
    | none => ""

/-- Messages about places in a source. -/
def reports (source : String) (ds : List Diagnostic) : String :=
  String.join (ds.map (report p source))

/-- A message without a place. -/
def complaint (message : String) : String := p.errorLabel ++ ": " ++ message ++ "\n"

/-- The message about a program that cannot be run. -/
def explain (source : String) (f : CompileFault) : String :=
  match f with
  | .unreadable (d :: ds) => reports p source (d :: ds)
  | .unreadable [] => complaint p f.message
  | .form fault => report p source ⟨fault.span, fault.message, none⟩
  | .undecidable u => report p source ⟨u.span, u.message, none⟩
  | .missing _ => complaint p f.message ++ p.hint "bind them with --bind NAME=JSON"

/-- A token with its place, as a line of a listing. -/
def listing (l : Lexeme) : String :=
  alignRight 4 l.span.start ++ ":" ++ alignLeft 3 l.span.stop ++ " " ++ l.token.listing ++ "\n"

/-- Lists the tokens of a source. -/
def lex (source : String) : Response :=
  let tokens := tokenize source
  if tokens.faults.isEmpty then
    success ("=== Tokens (" ++ toString tokens.lexemes.length ++ ") ===\n\n" ++
      String.join (tokens.lexemes.map listing) ++ "\n" ++ p.passed "Lex")
  else failure (reports p source tokens.faults ++ "\n" ++ p.failed "Lex" tokens.faults.length)

/-- Prints the tree of a source. -/
def parse (ns source : String) : Response :=
  match parseSource source with
  | ⟨some e, []⟩ => success (e.print ns ++ "\n\n" ++ p.passed "Parse")
  | parsed =>
    failure (reports p source parsed.faults ++ "\n" ++ p.failed "Parse" parsed.faults.length)

/-- The name of a type, painted. -/
def paintTy (t : Ty) : String :=
  p.paint (if t.isState then .bold .magenta else .plain .green) t.name

/-- Prints the type, the free names and the code of a program. -/
def compile (o : Options) (source : String) : Response :=
  match Program.compile o.ns o.symbols source with
  | .error f => failure (explain p source f)
  | .ok program =>
    let free := if program.free.isEmpty then ""
      else p.paint (.bold .yellow) "free:" ++ " " ++ ", ".intercalate program.free ++ "\n"
    success (p.paint (.bold .yellow) "type:" ++ " " ++ paintTy p program.ty ++ "\n" ++ free ++
      program.code ++ "\n")

/-- The values of bindings and lookups; a later one takes the place of an earlier one. -/
def environment (bindings lookups : List Binding) : Run (Entries Value) := do
  let values ← bindings.mapM fun b => do
    let v ← b.document.toValue
    pure (b.name, v)
  let tables ← lookups.mapM fun b => do
    let v ← b.document.toLookup b.name
    pure (b.name, v)
  pure (Entries.putAll [] (values ++ tables))

/-- Runs a program and prints its result. -/
def run (o : Options) (source : String) (bindings lookups : List Binding) : Response :=
  match Program.compile o.ns o.symbols source with
  | .error f => failure (explain p source f)
  | .ok program =>
    match environment bindings lookups 0 with
    | .error _ => failure ""
    | .ok (values, label) =>
      match program.check o.strict values with
      | .error f => failure (explain p source f)
      | .ok () =>
        match program.run depthLimit values label with
        | .ok (v, _) => success (v.display ++ "\n")
        | .error (.fault f) => failure (complaint p f.message)
        | .error .tooDeep => failure (complaint p "the program recurses too deeply")

/-- The response to a task on the source text of an input. -/
def onInput (files : String → Except String String) (input : Input) (k : String → Response) :
    Response :=
  match input with
  | .inline source => k source
  | .file path =>
    match files path with
    | .ok source => k source
    | .error reason => failure ("Error reading " ++ path ++ ": " ++ reason ++ "\n")

/-- The response to a task. `files` gives the contents of a file or the reason why there are none,
and `programs` the reason why a program cannot be started. -/
def perform (files : String → Except String String) (programs : String → String) (o : Options) :
    Task → Response
  | .lex input => onInput files input (lex p)
  | .parse input => onInput files input (parse p o.ns)
  | .compile input => onInput files input (compile p o)
  | .run input bindings lookups => onInput files input fun source => run p o source bindings lookups
  | .spawn program _ =>
    failure (complaint p ("failed to start " ++ program ++ ": " ++ programs program))

/-- The response to arguments; the exit code 2 says that they are refused. -/
def respond (files : String → Except String String) (programs : String → String)
    (args : List String) : Response :=
  match Arguments.read? args with
  | none => ⟨2, "", usage⟩
  | some .version => success version
  | some .help => success usage
  | some (.task o t) => perform p files programs o t

end Command

end DeltaForm
