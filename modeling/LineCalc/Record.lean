import LineCalc.Sequence.Element

/-!
The log. Each record says one thing that was read, decided or given up; its line is made from the
record alone. Reading is logged at the finer level, condensing and results at the coarser.
-/

namespace LineCalc

/-- All that is reported of one line. -/
structure Evaluation where
  /-- The run of elements as it was read. -/
  tokenized : String
  /-- The tree in the explicit style. -/
  parsed : String
  /-- The tree in the pretty style. -/
  pretty : String
  value : Float

namespace Evaluation

def of (s : Sequence) (t : Term) : Evaluation :=
  ⟨s.text, t.text .explicit, t.text .pretty, t.value⟩

def summary (e : Evaluation) : String :=
  "Evaluation \x7b tokenized: " ++ Text.quoted e.tokenized ++ ", parsed: " ++
    Text.quoted e.parsed ++ ", pretty: " ++ Text.quoted e.pretty ++ ", value: " ++
    Binary64.Layout.marked.text e.value ++ " \x7d"

end Evaluation

inductive Level where
  | trace | debug
deriving DecidableEq, Repr

def Level.text : Level → String
  | .trace => "TRACE"
  | .debug => "DEBUG"

inductive Record where
  /-- The cursor went back to a mark. -/
  | restored (offset mark : Nat)
  | constant (c : Constant)
  | numeral (n : Numeral)
  | grouping (inner : Term)
  | token (t : Token) (offset : Nat)
  | nothingFound (rest : List Char)
  | scanned (s : Sequence) (rest : List Char)
  | condensing (s : Sequence)
  | reduced (o : Operator) (result : Term)
  | evaluated (input : String) (e : Evaluation)

namespace Record

def level : Record → Level
  | .restored .. | .constant _ | .numeral _ | .grouping _ | .token .. | .nothingFound _
  | .scanned .. => .trace
  | .condensing _ | .reduced .. | .evaluated .. => .debug

def message : Record → String
  | .restored offset mark => "cursor restore " ++ toString offset ++ " -> " ++ toString mark
  | .constant c => "constant " ++ c.text
  | .numeral n =>
    "numeral " ++ n.text ++ " (mantissa " ++ Binary64.Layout.plain.text n.mantissa ++ ")"
  | .grouping inner => "grouping ( " ++ inner.text .pretty ++ " )"
  | .token t offset => "operator " ++ Text.quoted t.text ++ " at " ++ toString offset
  | .nothingFound rest => "nothing found, leaving " ++ Text.quoted (String.ofList rest)
  | .scanned s rest => "scanned " ++ s.text ++ ", leaving " ++ Text.quoted (String.ofList rest)
  | .condensing s => "condensing " ++ s.text
  | .reduced o result => "reduced " ++ Text.quoted o.token.text ++ " into " ++ result.text .pretty
  | .evaluated input e => Text.quoted input ++ " => " ++ e.summary

def line (r : Record) : String :=
  r.level.text ++ " " ++ r.message

end Record
end LineCalc
