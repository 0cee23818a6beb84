import PhraseStructure.Command.Outcome

/-!
# Command line

Reads the grammar file and the standard input, and prints what the command's outcome says.
-/

namespace PhraseStructure.Command

/-- How the command is called. -/
def usageText : String :=
  "usage:\n" ++
  "  generate GRAMMAR [-n AMOUNT] [-s SYMBOL] [--seed SEED] [--max-depth DEPTH]\n" ++
  "           [--max-attempts ATTEMPTS] [-p]\n" ++
  "  parse GRAMMAR [-r SYMBOL] [-c] [-p]\n"

/-- A number of attempts that no run makes. -/
def attemptFuel : Nat := Nat.pow 2 62

/-- The content of a file, or why there is none. A path through a file fails to open, while a
directory opens and fails to be read, which the error tells by leaving out the path. -/
def readContent (path : String) : IO (Except ReadError ByteArray) := do
  try
    return .ok (← IO.FS.readBinFile path)
  catch
    | .noFileOrDirectory .. => return .error .notFound
    | .inappropriateType (some _) .. => return .error .notDirectory
    | .inappropriateType none .. => return .error .isDirectory
    | e => throw e

/-- What a request needs of the outside: its grammar file, if it names one, and the standard
input, if it reads that. -/
def gather (request : Request) : IO (Except ReadError ByteArray × List UInt8) := do
  let content ← match request.path? with
    | none => pure (.error .notFound)
    | some path => readContent path
  let input ← if request.readsInput then (← IO.getStdin).readBinToEnd else pure .empty
  return (content, input.toList)

/-- The draws of eight random words as a key, for runs without a seed. -/
def unseededDraws : IO Draws := do
  let bytes := (← IO.getRandomBytes 32).toList
  let word (i : Nat) : UInt32 :=
    (List.range 4).foldl (fun word j => word <<< 8 + (bytes.getD (4 * i + j) 0).toUInt32) 0
  return .ofKey (Vector.ofFn fun i => word i)

/-- Prints an outcome and gives its exit code. -/
def report (outcome : Outcome) : IO UInt32 := do
  match outcome with
  | .help => IO.print usageText
  | .usage e => IO.eprintln (e.message ++ "\n\n" ++ usageText)
  | .done printed => IO.print printed
  | .failed printed record =>
    IO.print printed
    IO.eprint record
  | .oversize e => IO.eprintln e.message
  | .unfinished => IO.eprintln "no more attempts are left"
  return outcome.exitCode.toUInt32

end PhraseStructure.Command

open PhraseStructure.Command in
def main (arguments : List String) : IO UInt32 := do
  let (content, input) ← match Request.ofArguments arguments with
    | .error _ => pure (.error .notFound, [])
    | .ok request => gather request
  let unseeded ← unseededDraws
  report (Outcome.ofArguments arguments (fun _ => content) input attemptFuel unseeded)
