import LineCalc.CommandLine

/-!
The program: it reads the arguments and the first line of the standard input, and writes what
`CommandLine` answers.
-/

namespace LineCalc

/-- The bytes of a stream up to its end, or to the end of a piece that holds a line feed. -/
partial def readLine (stream : IO.FS.Stream) (bytes : ByteArray) : IO ByteArray := do
  let piece ← stream.read 4096
  if piece.isEmpty then
    return bytes
  else if piece.toList.contains 10 then
    return bytes ++ piece
  else
    readLine stream (bytes ++ piece)

/-- What the arguments after `eval` ask for: an expression, or none; nothing where they are not
understood. -/
def expressionOf : List String → Option (Option String)
  | [] => some none
  | ["--expr", text] | ["-e", text] => some (some text)
  | [argument] =>
    if argument.startsWith "--expr=" then
      some (some (String.ofList (argument.toList.drop "--expr=".length)))
    else
      none
  | _ => none

def write (result : CommandLine.Result) : IO UInt32 := do
  IO.print result.stdout
  IO.eprint result.stderr
  return result.status.toUInt32

def usage : IO UInt32 := do
  IO.eprintln "usage: eval [--expr TEXT]"
  return 2

end LineCalc

open LineCalc in
def main : List String → IO UInt32
  | "eval" :: options =>
    match expressionOf options with
    | some (some expression) => write (CommandLine.ofExpression expression)
    | some none => do
      IO.print CommandLine.prompt
      (← IO.getStdout).flush
      write (CommandLine.ofBytes (← readLine (← IO.getStdin) .empty))
    | none => usage
  | _ => usage
