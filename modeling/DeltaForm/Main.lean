import DeltaForm.Command

/-!
# The command line tool

Reads the files that the arguments name, asks `Command.respond` for the answer, and prints it.
Output is painted only if `FORCE_COLOR` is set and `NO_COLOR` is not. No other program is started:
each one counts as absent.
-/

namespace DeltaForm

/-- The contents of a file, or the reason why there are none. -/
def contents (path : String) : IO (Except String String) := do
  try
    let text ← IO.FS.readFile path
    pure (.ok text)
  catch
    | .noFileOrDirectory .. => pure (.error "No such file or directory (os error 2)")
    | e => pure (.error (toString e))

/-- The files among the arguments with their contents. -/
def filesOf (args : List String) : IO (List (String × Except String String)) :=
  match Arguments.read? args with
  | some (.task _ (.lex (.file path))) | some (.task _ (.parse (.file path)))
  | some (.task _ (.compile (.file path))) | some (.task _ (.run (.file path) _ _)) => do
    let text ← contents path
    pure [(path, text)]
  | _ => pure []

end DeltaForm

open DeltaForm in
/-- Answers the arguments. -/
def main (args : List String) : IO UInt32 := do
  let absent := "No such file or directory (os error 2)"
  let files ← filesOf args
  let plain ← IO.getEnv "NO_COLOR"
  let forced ← IO.getEnv "FORCE_COLOR"
  let palette : Palette := ⟨plain.isNone && forced.isSome⟩
  let response := Command.respond palette (fun path => (files.lookup path).getD (.error absent))
    (fun _ => absent) args
  IO.print response.out
  IO.eprint response.err
  pure response.code.toUInt32
