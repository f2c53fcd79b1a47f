import LineCalc.Reading

/-!
A whole line: reading it to its end, condensing what was read, and reporting on the result. Blanks
may follow the expression and nothing else may.
-/

namespace LineCalc

namespace Reading

open Step

/-- The run of elements that fills the line. -/
def line : Reading Sequence := do
  match ← sequence none with
  | none => throw (.noExpression (← cursor).contentOffset)
  | some s =>
    let c ← cursor
    let offset := c.contentOffset
    if offset < c.size then
      throw (.trailingInput offset (String.ofList (c.input.drop offset)))
    else
      return s

/-- The report on the line, which is logged when there is one. -/
def evaluation (input : String) : Reading Evaluation := do
  let s ← line
  let e := Evaluation.of s (← condense s)
  log (.evaluated input e)
  return e

end Reading

/-- What a reading answers, the session dropped. -/
def Reading.outcome {α : Type} (r : Reading α) (s : Session) : Except Fault α :=
  match r s with
  | .ok a _ => .ok a
  | .error fault _ => .error fault

/-- What a reading logs, oldest first. -/
def Reading.records {α : Type} (r : Reading α) (s : Session) : List Record :=
  match r s with
  | .ok _ s | .error _ s => s.records.reverse

/-- The elements of a line. -/
def scan (input : String) : Except Fault Sequence :=
  Reading.line.outcome (.start input)

/-- The tree of a line. -/
def parse (input : String) : Except Fault Term := do
  (← scan input).condense

/-- The report on a line. -/
def evaluate (input : String) : Except Fault Evaluation :=
  (Reading.evaluation input).outcome (.start input)

/-- The log of a line's evaluation. -/
def trace (input : String) : List Record :=
  (Reading.evaluation input).records (.start input)

end LineCalc
