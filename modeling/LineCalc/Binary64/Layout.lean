import LineCalc.Binary64.Shortest

/-!
How a floating-point number is written: its shortest decimal, laid out with a point or, outside a
window of magnitudes, with an exponent. Two layouts are in use. Results are written plainly, never
with an exponent; the log's last line marks whole numbers by a fraction and gives very small and
very large magnitudes an exponent.
-/

namespace LineCalc
namespace Binary64

/-- Decisions of a layout. A decimal is placed by how many of its digits stand before the point, a
count that is zero or negative for fractions below one tenth. -/
structure Layout where
  /-- The least and greatest count that is written positionally; all are where it is absent. -/
  window : Option (Int × Int)
  /-- What follows the digits of a whole number written positionally. -/
  wholeEnd : List Char
deriving DecidableEq, Repr

namespace Layout

/-- Always positional, and nothing marks a whole number. -/
def plain : Layout := ⟨none, []⟩

/-- Positional from one ten-thousandth to below ten to the sixteenth. -/
def marked : Layout := ⟨some (-3, 16), ['.', '0']⟩

/-- Digits with the point after the first `before` of them, filled up with zeros. -/
def positional (layout : Layout) (digits : List Char) (before : Int) : List Char :=
  if before ≤ 0 then
    ['0', '.'] ++ List.replicate (-before).toNat '0' ++ digits
  else if digits.length ≤ before.toNat then
    digits ++ List.replicate (before.toNat - digits.length) '0' ++ layout.wholeEnd
  else
    digits.take before.toNat ++ '.' :: digits.drop before.toNat

/-- One digit before the point, then an exponent without padding or plus sign. -/
def scientific (digits : List Char) (before : Int) : List Char :=
  let exponent := 'e' :: (toString (before - 1)).toList
  match digits with
  | [] => exponent
  | [d] => d :: exponent
  | d :: ds => d :: '.' :: ds ++ exponent

def magnitude (layout : Layout) (x : Decimal) : List Char :=
  let digits := Nat.toDigits 10 x.coefficient
  let before := x.exponent + digits.length
  match layout.window with
  | none => layout.positional digits before
  | some (least, greatest) =>
    if least ≤ before ∧ before ≤ greatest then
      layout.positional digits before
    else
      scientific digits before

def sign : Float.Model.UnpackedFloat.Sign → List Char
  | .negative => ['-']
  | .positive => []

/-- The text of a number. Zero keeps its sign, and what is not a number has none. -/
def text (layout : Layout) (x : Float) : String :=
  String.ofList <|
    match x.toModel.unpack with
    | .notANumber => ['N', 'a', 'N']
    | .infinity s => sign s ++ ['i', 'n', 'f']
    | .zero s => sign s ++ '0' :: layout.wholeEnd
    | .finite s mantissa exponent _ =>
      let narrow := mantissa == Nat.pow 2 52 && decide (-1074 < exponent)
      sign s ++ layout.magnitude (Cell.shortest ⟨mantissa, exponent, narrow⟩)

end Layout
end Binary64
end LineCalc
