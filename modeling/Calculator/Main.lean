import Calculator.CommandLine.Task

/-!
# The program

Reads what the task of the command line needs, runs the command line on it, and shows the result.
-/

namespace Calculator.CommandLine

/-- Read everything that a stream still holds. -/
partial def readAll (stream : IO.FS.Stream) (read : ByteArray) : IO ByteArray := do
  let chunk ← stream.read 65536
  if chunk.isEmpty then return read else readAll stream (read ++ chunk)

/-- The bytes of standard input. -/
def readInput : IO (List UInt8) := do
  return (← readAll (← IO.getStdin) .empty).toList

/-- The bytes of a file, if it can be read. -/
def readFile (path : String) : IO (Option (List UInt8)) := do
  try
    return some (← IO.FS.readBinFile path).toList
  catch _ => return none

/-- Run a command line on the bytes that its task reads. -/
def runWithInput (words : List String) : IO Result := do
  match (readWords words).map Arguments.task with
  | .ok .standardInput => return run words (← readInput) fun _ => none
  | .ok (.file path) =>
    let content ← readFile path
    return run words [] fun _ => content
  | _ => return run words [] fun _ => none

end Calculator.CommandLine

/-- Carry out a command line. -/
def main (words : List String) : IO UInt32 := do
  let result ← Calculator.CommandLine.runWithInput words
  IO.print result.output
  IO.eprint result.complaint
  return result.status
