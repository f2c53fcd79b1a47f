import LineCalc.Binary64.Layout

/-!
Decimal literals. A numeral keeps its digits as they were written, so that its text can be given
back, and its value follows from them: the digits before and after the point, read to the nearest
floating-point number, and then one multiplication for each step of the exponent. The steps are
not joined into one power, because each of them rounds.
-/

namespace LineCalc

abbrev Digit := Fin 10

namespace Digit

def ofChar? (c : Char) : Option Digit :=
  if h : '0'.toNat ≤ c.toNat ∧ c.toNat ≤ '9'.toNat then
    some ⟨c.toNat - '0'.toNat, by
      have : '9'.toNat = '0'.toNat + 9 := rfl
      omega⟩
  else
    none

def char (d : Digit) : Char :=
  Char.ofNat ('0'.toNat + d.val)

/-- The number that a row of digits stands for, zero for the empty row. -/
def valueOf (digits : List Digit) : Nat :=
  digits.foldl (fun n d => n * 10 + d.val) 0

/-- The longest row of digits at the head of a text, and what follows it. -/
def leading : List Char → List Digit × List Char
  | [] => ([], [])
  | c :: rest =>
    match ofChar? c with
    | some d => (d :: (leading rest).1, (leading rest).2)
    | none => ([], c :: rest)

theorem ofChar?_char (d : Digit) : ofChar? d.char = some d := by
  revert d
  decide

theorem char_of_ofChar? {c : Char} {d : Digit} (h : ofChar? c = some d) : d.char = c := by
  unfold ofChar? at h
  split at h
  · rename_i hc
    cases h
    simp only [char]
    rw [Nat.add_sub_cancel' hc.1, Char.ofNat_toNat]
  · cases h

/-- The digits and what follows them are the text. -/
theorem map_char_leading (text : List Char) :
    (leading text).1.map char ++ (leading text).2 = text := by
  induction text with
  | nil => rfl
  | cons c rest ih =>
    cases h : ofChar? c with
    | none => simp [leading, h]
    | some d => simp [leading, h, ih, char_of_ofChar? h]

end Digit

inductive Sign where
  | plus | minus
deriving DecidableEq, Repr

namespace Sign

def ofChar? : Char → Option Sign
  | '+' => some .plus
  | '-' => some .minus
  | _ => none

/-- A plus is not written. -/
def chars : Sign → List Char
  | .plus => []
  | .minus => ['-']

/-- The sign at the head of a text, a plus where none is written, and what follows it. -/
def leading : List Char → Sign × List Char
  | [] => (.plus, [])
  | c :: rest =>
    match ofChar? c with
    | some sign => (sign, rest)
    | none => (.plus, c :: rest)

end Sign

/-- A power of ten, with at least one digit. -/
structure Exponent where
  sign : Sign
  digits : List Digit
  digits_ne_nil : digits ≠ []
deriving DecidableEq

/-- A literal as written. One of the rows beside the point may be missing, and is then empty. -/
structure Numeral where
  sign : Sign
  integer : List Digit
  decimal : List Digit
  exponent : Option Exponent
  has_digits : integer ≠ [] ∨ decimal ≠ []
deriving DecidableEq

namespace Exponent

def chars (x : Exponent) : List Char :=
  'E' :: (x.sign.chars ++ x.digits.map Digit.char)

def factor (x : Exponent) : Float :=
  match x.sign with
  | .plus => 10.0
  | .minus => 0.1

/-- The steps are counted in 64 bits and stop at the greatest count. -/
def maxSteps : Nat :=
  Nat.pow 2 64 - 1

def steps (x : Exponent) : Nat :=
  x.digits.foldl (fun n d => min (min (n * 10) maxSteps + d.val) maxSteps) 0

end Exponent

namespace Numeral

/-- The numeral as it is shown: a plus sign and a point without digits after it are dropped, and
the exponent marker is a capital. -/
def chars (n : Numeral) : List Char :=
  n.sign.chars ++ n.integer.map Digit.char ++
    (if n.decimal = [] then [] else '.' :: n.decimal.map Digit.char) ++
    (n.exponent.map Exponent.chars).getD []

def text (n : Numeral) : String :=
  String.ofList n.chars

/-- The value before the exponent is applied. -/
def mantissa (n : Numeral) : Float :=
  let magnitude := Float.ofScientific (Digit.valueOf (n.integer ++ n.decimal)) true n.decimal.length
  match n.sign with
  | .plus => magnitude
  | .minus => -magnitude

/-- Multiplies a number of times, unless further factors change nothing. -/
def scale (factor : Float) : Nat → Float → Float
  | 0, value => value
  | steps + 1, value =>
    if value == 0.0 || value.isInf then value else scale factor steps (value * factor)

def value (n : Numeral) : Float :=
  match n.exponent with
  | none => n.mantissa
  | some x => scale x.factor x.steps n.mantissa

end Numeral
end LineCalc
