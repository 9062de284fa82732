import LetPoly.Command.Run

/-!
# The command

Reads the sources that the arguments name, runs the command on them, and writes its
lines to the two channels.
-/

namespace LetPoly.Command

/-- Reads a file. -/
def readFile (name : String) : IO (Except ReadError (List UInt8)) := do
  try
    return .ok (← IO.FS.readBinFile name).toList
  catch e =>
    return .error <|
      match e with
      | .noFileOrDirectory .. => .notFound
      | .inappropriateType .. => .isADirectory
      | e => .other (toString e)

/-- Writes a line. -/
def writeLine : Line → IO Unit
  | .output text => IO.println text
  | .error text => IO.eprintln text

end LetPoly.Command

open LetPoly.Command in
/-- Runs the command on the given arguments. -/
def main (args : List String) : IO UInt32 := do
  let names := match Arguments.read args with
    | .ok args => args.sources
    | .error _ => []
  let contents ← names.mapM fun name => do return (name, ← readFile name)
  let read name := (contents.lookup name).getD (.error .notFound)
  let outcome := run args read
  outcome.lines.forM writeLine
  return outcome.code.toUInt32
