import LineCalc.Calculator

/-!
What the command line does, without doing it: from the expression that was given, or else from the
bytes of the standard input, to the texts that are written and the exit status.
-/

namespace LineCalc
namespace CommandLine

structure Result where
  status : UInt8
  stdout : String
  stderr : String
deriving DecidableEq, Repr

def prompt : String :=
  "Enter an expression to parse: "

/-- A failure is reported with its cause below it. -/
def failure (context cause : String) : Result :=
  ⟨1, "", "Error: " ++ context ++ "\n\nCaused by:\n    " ++ cause ++ "\n"⟩

def report (e : Evaluation) : String :=
  "Tokenized String: " ++ e.tokenized ++ "\n" ++
  "Parsed String: " ++ e.parsed ++ "\n" ++
  "Pretty String: " ++ e.pretty ++ "\n" ++
  "Evaluates to: " ++ Binary64.Layout.plain.text e.value ++ "\n"

def ofExpression (input : String) : Result :=
  match evaluate input with
  | .ok e => ⟨0, report e, ""⟩
  | .error fault => failure ("can't evaluate " ++ Text.quoted input) fault.message

/-- The first line of some bytes, with the line feed that ends it. -/
def firstLine (bytes : List UInt8) : List UInt8 :=
  let line := bytes.takeWhile (· != 10)
  line ++ (bytes.drop line.length).take 1

/-- Drops the carriage returns and line feeds at the end. -/
def stripLineEnd (line : String) : String :=
  String.ofList (line.toList.reverse.dropWhile fun c => c == '\r' || c == '\n').reverse

/-- Only the first line is looked at, and it has to be UTF-8. -/
def ofBytes (stdin : ByteArray) : Result :=
  match String.fromUTF8? ⟨(firstLine stdin.toList).toArray⟩ with
  | some line => ofExpression (stripLineEnd line)
  | none => failure "can't read expression from stdin" "stream did not contain valid UTF-8"

/-- The whole run. The standard input is asked for, and looked at, only without an expression. -/
def run (expression : Option String) (stdin : ByteArray) : Result :=
  match expression with
  | some input => ofExpression input
  | none =>
    let result := ofBytes stdin
    { result with stdout := prompt ++ result.stdout }

end CommandLine
end LineCalc
