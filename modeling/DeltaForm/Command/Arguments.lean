import DeltaForm.Binding
import DeltaForm.Expr
import DeltaForm.Symbols

/-!
# Command line arguments

The arguments name a subcommand, and options before or after it: `--symbol`, `--strict` and
`--namespace` for all, and the subcommand's own after it. An option takes its value from the next
argument or after an equals sign; a value that starts with a dash has to come after an equals sign.
After `--` no argument is an option.

An option given on both sides of the subcommand counts on the right side only, and only `--symbol`,
`--bind` and `--lookup` may be repeated on one side.
-/

namespace DeltaForm

/-- Where a source text comes from. -/
inductive Input
  /-- The arguments. -/
  | inline (source : String)
  /-- A file. -/
  | file (path : String)
  deriving DecidableEq, Repr

/-- What to do. -/
inductive Task
  /-- List the tokens of a source. -/
  | lex (input : Input)
  /-- Print the tree of a source. -/
  | parse (input : Input)
  /-- Print the type and the code of a program. -/
  | compile (input : Input)
  /-- Run a program and print its result. -/
  | run (input : Input) (bindings lookups : List Binding)
  /-- Start another program. -/
  | spawn (program : String) (args : List String)

/-- The options of all tasks. -/
structure Options where
  /-- The namespace of programs. -/
  ns : String
  /-- Whether all free names have to have values. -/
  strict : Bool
  /-- The declared symbols. -/
  symbols : Symbols

/-- What the arguments ask for. -/
inductive Request
  | task (options : Options) (task : Task)
  | version
  | help

namespace Arguments

/-- The subcommands. -/
inductive Verb
  | lex | parse | compile | run | spawn
  deriving DecidableEq, Repr

/-- The subcommand with a name. -/
def Verb.ofName? (name : String) : Option Verb :=
  [("lex", lex), ("parse", parse), ("compile", compile), ("run", run), ("spawn", spawn)].lookup name

/-- The options with a value. -/
inductive Key
  | symbol | ns | eval | bind | lookup | timeout
  deriving DecidableEq, Repr

/-- The options without a value. -/
inductive Switch
  | strict | messaging | version | help
  deriving DecidableEq, Repr

/-- An argument as it is understood. -/
inductive Item
  | switch (s : Switch)
  | key (k : Key) (value : String)
  | word (s : String)
  deriving DecidableEq, Repr

/-- The options with a value that are known before the subcommand or after it. -/
def key? (verb : Option Verb) (name : String) : Option Key :=
  match name with
  | "--symbol" => some .symbol
  | "--namespace" => some .ns
  | "--eval" | "-e" =>
    match verb with
    | none | some .spawn => none
    | _ => some .eval
  | "--bind" => if verb = some .run then some .bind else none
  | "--lookup" => if verb = some .run then some .lookup else none
  | "--timeout" => if verb = some .spawn then some .timeout else none
  | _ => none

/-- The options without a value that are known before the subcommand or after it. -/
def switch? (verb : Option Verb) (name : String) : Option Switch :=
  match name with
  | "--strict" => some .strict
  | "--messaging" => if verb = some .spawn then some .messaging else none
  | "--version" | "-V" => if verb = none then some .version else none
  | "--help" | "-h" => some .help
  | _ => none

/-- Whether an argument is an option by its form. -/
def isOption (arg : String) : Bool :=
  match arg.toList with
  | '-' :: _ :: _ => true
  | _ => false

/-- An option with its value after an equals sign, or after the letter of a short one. -/
def attached? (verb : Option Verb) (arg : String) : Option Item :=
  match arg.toList with
  | '-' :: '-' :: cs =>
    match cs.dropWhile (· ≠ '=') with
    | [] => none
    | _ :: value =>
      let name := String.ofList ('-' :: '-' :: cs.takeWhile (· ≠ '='))
      (key? verb name).map (.key · (String.ofList value))
  | '-' :: letter :: c :: cs =>
    let value := if c = '=' then cs else c :: cs
    (key? verb (String.ofList ['-', letter])).map (.key · (String.ofList value))
  | _ => none

/-- The items of a side of the subcommand, and what is left when a word ends it. Before the
subcommand the first word ends the side; after it, the second word of `spawn` does. -/
def items? (verb : Option Verb) (words : Nat) : List String → Option (List Item × List String)
  | [] => some ([], [])
  | arg :: args =>
    if arg = "--" then
      if verb = none then none
      else some (args.map .word, [])
    else if isOption arg then
      match switch? verb arg, key? verb arg, attached? verb arg with
      | some .version, _, _ => some ([.switch .version], [])
      | some .help, _, _ => some ([.switch .help], [])
      | some s, _, _ => (items? verb words args).map fun r => (.switch s :: r.1, r.2)
      | none, some k, _ =>
        match args with
        | value :: args =>
          if isOption value then none
          else (items? verb words args).map fun r => (.key k value :: r.1, r.2)
        | [] => none
      | none, none, some item => (items? verb words args).map fun r => (item :: r.1, r.2)
      | none, none, none =>
        if verb = some .spawn && words = 1 then some ((arg :: args).map .word, []) else none
    else if verb = none then some ([], arg :: args)
    else if verb = some .spawn && words = 1 then some ((arg :: args).map .word, [])
    else (items? verb (words + 1) args).map fun r => (.word arg :: r.1, r.2)

/-- The values of an option. -/
def values (k : Key) (items : List Item) : List String :=
  items.filterMap fun
    | .key k' v => if k' = k then some v else none
    | _ => none

/-- Whether an option is given. -/
def given (s : Switch) (items : List Item) : Bool := items.contains (.switch s)

/-- The words that are no options. -/
def words (items : List Item) : List String :=
  items.filterMap fun
    | .word s => some s
    | _ => none

/-- Whether no option that must not be repeated is. -/
def isRegular (items : List Item) : Bool :=
  [Key.ns, .eval, .timeout].all (fun k => (values k items).length ≤ 1) &&
    [Switch.strict, .messaging].all fun s => items.count (.switch s) ≤ 1

/-- The input of a subcommand: a file or a source, not both. -/
def input? (items : List Item) : Option Input :=
  match words items, values .eval items with
  | [], [source] => some (.inline source)
  | [path], [] => if path.isEmpty then none else some (.file path)
  | _, _ => none

/-- Reads bindings, all of which have to be well formed. -/
def bindings? (texts : List String) : Option (List Binding) :=
  texts.mapM fun t => (Binding.read t).toOption

/-- Whether a text is a number of seconds: digits, with an optional plus sign, below `2 ^ 64`. -/
def isSeconds (s : String) : Bool :=
  let digits := match s.toList with
    | '+' :: ds => ds
    | ds => ds
  !digits.isEmpty && digits.all Char.isDigit && digitsValue 10 digits < wordLimit

/-- The task of a subcommand with its items. -/
def task? (verb : Verb) (items : List Item) : Option Task :=
  match verb with
  | .lex => (input? items).map .lex
  | .parse => (input? items).map .parse
  | .compile => (input? items).map .compile
  | .run => do
    let input ← input? items
    let bindings ← bindings? (values .bind items)
    let lookups ← bindings? (values .lookup items)
    some (.run input bindings lookups)
  | .spawn =>
    match words items with
    | program :: args =>
      if !program.isEmpty && (values .timeout items).all isSeconds then some (.spawn program args)
      else none
    | [] => none

/-- The options, of which those after the subcommand count first. -/
def options (before after : List Item) : Options :=
  let pick (k : Key) := if (values k after).isEmpty then values k before else values k after
  { ns := (pick .ns).headD defaultNamespace
    strict := given .strict before || given .strict after
    symbols := .ofList (pick .symbol) }

/-- Reads the arguments; none if they are refused. -/
def read? (args : List String) : Option Request := do
  let (before, rest) ← items? none 0 args
  if given .version before then some .version
  else if given .help before then some .help
  else
    match rest with
    | [] => none
    | name :: rest =>
      let verb ← Verb.ofName? name
      let (after, _) ← items? (some verb) 0 rest
      if given .help after then some .help
      else if isRegular before && isRegular after then
        let task ← task? verb after
        some (.task (options before after) task)
      else none

end Arguments

end DeltaForm
