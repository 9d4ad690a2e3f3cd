import CMinus.Command.Run

/-!
# The command

Reads the input file, if the arguments name one, and prints the outcome.
-/

namespace CMinus.Command

/-- The text of a file, or why it cannot be had. -/
def readSource (path : String) : IO (Except Failure String) := do
  try
    let bytes ← IO.FS.readBinFile path
    match String.fromUTF8? bytes with
    | some text => return .ok text
    | none => return .error (.unreadable "stream did not contain valid UTF-8")
  catch e =>
    return .error (.unreadable (toString e))

/-- The input that the arguments name. -/
def inputOf? (words : List String) : Option String :=
  match Invocation.ofWords words with
  | .run o => some o.input
  | _ => none

end CMinus.Command

open CMinus Command in
/-- The entry point. -/
def main (words : List String) : IO UInt32 := do
  let source ← match inputOf? words with
    | some path => readSource path
    | none => pure (.error (.unreadable "no input"))
  let outcome := run words fun _ => source
  IO.eprint outcome.stderr
  IO.print outcome.stdout
  return outcome.exit
