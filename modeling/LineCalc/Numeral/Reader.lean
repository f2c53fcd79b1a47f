import LineCalc.Numeral.Basic

/-!
Reading a numeral at the head of a text. The decision falls with one character of look-ahead: a
text that shows neither digits nor a point or exponent marker is no numeral, one that shows a point
or marker must go on to be complete, and one that has been completed ends before the first
character that cannot belong to it. Every answer comes with the text that begins at that
character.
-/

namespace LineCalc

namespace Exponent

def isMarker (c : Char) : Bool :=
  c == 'e' || c == 'E'

/-- Behind a marker, the exponent if it has digits; nothing where no marker stands. -/
def read : List Char → Option (Option Exponent × List Char)
  | [] => none
  | c :: rest =>
    if isMarker c then
      let sign := Sign.leading rest
      let digits := Digit.leading sign.2
      if h : digits.1 ≠ [] then
        some (some ⟨sign.1, digits.1, h⟩, digits.2)
      else
        some (none, digits.2)
    else
      none

end Exponent

namespace Numeral

inductive Flaw where
  | noDigits
  | noExponentDigits
deriving DecidableEq, Repr

def Flaw.detail : Flaw → String
  | .noDigits => "found decimal point or exponent marker but no digits"
  | .noExponentDigits => "found exponent marker but no exponent digits"

inductive Verdict where
  | absent
  | malformed (flaw : Flaw)
  | found (n : Numeral)
deriving DecidableEq

/-- The digits after a point, none where no point stands. -/
def fraction : List Char → List Digit × List Char
  | '.' :: rest => Digit.leading rest
  | rest => ([], rest)

/-- A point or marker without digits before it commits the reading to a numeral. -/
def isCommitted : List Char → Bool
  | [] => false
  | c :: _ => c == '.' || Exponent.isMarker c

def read (text : List Char) : Verdict × List Char :=
  let sign := Sign.leading text
  let integer := Digit.leading sign.2
  let decimal := fraction integer.2
  if h : integer.1 ≠ [] ∨ decimal.1 ≠ [] then
    match Exponent.read decimal.2 with
    | none => (.found ⟨sign.1, integer.1, decimal.1, none, h⟩, decimal.2)
    | some (some x, rest) => (.found ⟨sign.1, integer.1, decimal.1, some x, h⟩, rest)
    | some (none, rest) => (.malformed .noExponentDigits, rest)
  else if isCommitted integer.2 then
    (.malformed .noDigits, decimal.2)
  else
    (.absent, decimal.2)

end Numeral
end LineCalc
