import LineCalc.Cursor
import LineCalc.Span
import LineCalc.Text.Quoted

/-!
Why a line has no value. Three families are told apart: a numeral that began and never became
complete, which ends the reading at once; a run of terms and operators that is no expression; and
internal faults, which say that operators or marks were misused and no line can cause.
-/

namespace LineCalc

inductive Fault where
  /-- A numeral's point or exponent marker stood without the digits it needs. -/
  | malformed (detail : String) (span : Span)
  /-- Nothing could be read at the start. -/
  | noExpression (offset : Nat)
  /-- The expression ended before the line did. -/
  | trailingInput (offset : Nat) (rest : String)
  | missingOperand (token : String) (offset : Nat)
  /-- The token has no use in this position. -/
  | unexpectedOperator (token : String) (offset : Nat)
  /-- Two terms with nothing between them; the offset is the second one's. -/
  | missingOperator (offset : Nat)
  /-- The token has several uses in this position. -/
  | ambiguousOperator (token : String) (offset count : Nat)
  | arityMismatch (token : String) (expected got : Nat)
  /-- A text that was to be read as a floating-point number is none. -/
  | unreadableFloat (text : String)
  | cursor (fault : CursorFault)
deriving DecidableEq, Repr

namespace Fault

def message : Fault → String
  | .malformed detail span => "malformed numeral at " ++ span.text ++ ": " ++ detail
  | .noExpression offset => "no expression found at offset " ++ toString offset
  | .trailingInput offset rest =>
    "unexpected input at offset " ++ toString offset ++ ": " ++ Text.quoted rest
  | .missingOperand token offset =>
    "operator " ++ Text.quoted token ++ " at offset " ++ toString offset ++
      " is missing an operand"
  | .unexpectedOperator token offset =>
    "operator " ++ Text.quoted token ++ " at offset " ++ toString offset ++ " cannot appear here"
  | .missingOperator offset => "expected an operator before offset " ++ toString offset
  | .ambiguousOperator token offset count =>
    "operator " ++ Text.quoted token ++ " at offset " ++ toString offset ++
      " is ambiguous (" ++ toString count ++ " candidates)"
  | .arityMismatch token expected got =>
    "operator " ++ Text.quoted token ++ " expects " ++ toString expected ++
      " operand(s), got " ++ toString got
  | .unreadableFloat text =>
    let kind := if text.isEmpty then "Empty" else "Invalid"
    "unable to parse ParseFloatError \x7b kind: " ++ kind ++ " \x7d"
  | .cursor fault => "cursor error " ++ fault.message

/-- Is this a numeral that began and never became complete? -/
def isMalformed : Fault → Bool
  | .malformed .. => true
  | _ => false

/-- Is this a fault that no line can cause? -/
def isInternal : Fault → Bool
  | .ambiguousOperator .. | .arityMismatch .. | .unreadableFloat _ | .cursor _ => true
  | _ => false

end Fault

/-- Whether an outcome is a given fault is decided without comparing results, so also where a result
holds a floating-point number. -/
instance {α : Type} (r : Except Fault α) (fault : Fault) : Decidable (r = .error fault) :=
  match r with
  | .ok _ => .isFalse (by simp)
  | .error e => decidable_of_iff (e = fault) (by simp)

instance {α : Type} [DecidableEq α] (r : Except Fault α) (a : α) : Decidable (r = .ok a) :=
  match r with
  | .ok b => decidable_of_iff (b = a) (by simp)
  | .error _ => .isFalse (by simp)

end LineCalc
