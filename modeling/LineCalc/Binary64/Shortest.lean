/-!
The shortest decimal that reads back as a given positive binary number. A number m · 2 ^ q stands
for an interval of reals, those that round to it; the decimal chosen is the point of that interval
on the coarsest grid 10 ^ j that has one. Of two such points the nearer is taken, and the larger
where both are equally near. Everything is exact arithmetic on natural numbers.
-/

namespace LineCalc
namespace Binary64

/-- The number coefficient · 10 ^ exponent. -/
structure Decimal where
  coefficient : Nat
  exponent : Int
deriving DecidableEq, Repr

/-- The number mantissa · 2 ^ exponent among its neighbours. At a power of two the number below is
only half as far away as the number above; such a cell is narrow. -/
structure Cell where
  mantissa : Nat
  exponent : Int
  narrow : Bool
deriving DecidableEq, Repr

/-- Compares a · 2 ^ p with c · 10 ^ j. -/
def compareScaled (a : Nat) (p : Int) (c : Nat) (j : Int) : Ordering :=
  compare (a * Nat.pow 2 p.toNat * Nat.pow 10 (-j).toNat)
    (c * Nat.pow 10 j.toNat * Nat.pow 2 (-p).toNat)

namespace Cell

/-- Does c · 10 ^ j round to this number? The ends of the interval lie halfway to the neighbours
and belong to it when the mantissa is even. Distances are counted in quarter steps. -/
def contains (x : Cell) (c : Nat) (j : Int) : Bool :=
  let low := compareScaled (4 * x.mantissa - if x.narrow then 1 else 2) (x.exponent - 2) c j
  let high := compareScaled (4 * x.mantissa + 2) (x.exponent - 2) c j
  if x.mantissa % 2 = 0 then low.isLE && high.isGE else low.isLT && high.isGT

/-- How many whole steps of 10 ^ j fit into the number. -/
def steps (x : Cell) (j : Int) : Nat :=
  (x.mantissa * Nat.pow 2 x.exponent.toNat * Nat.pow 10 (-j).toNat) /
    (Nat.pow 10 j.toNat * Nat.pow 2 (-x.exponent).toNat)

/-- The multiple of 10 ^ j that stands for the number, if any does. Where one exists, one of the
number's two neighbours on the grid is one. -/
def onGrid (x : Cell) (j : Int) : Option Nat :=
  let below := x.steps j
  match x.contains below j, x.contains (below + 1) j with
  | true, true =>
    if (compareScaled (2 * x.mantissa) x.exponent (2 * below + 1) j).isLT then
      some below
    else
      some (below + 1)
  | true, false => some below
  | false, true => some (below + 1)
  | false, false => none

/-- Tries the grid 10 ^ j and then finer ones. -/
def shortestFrom (x : Cell) : Nat → Int → Decimal
  | 0, j => ⟨x.steps j, j⟩
  | finer + 1, j =>
    match x.onGrid j with
    | some c => ⟨c, j⟩
    | none => x.shortestFrom finer (j - 1)

/-- A grid above the number. Two to the tenth exceeds ten to the third by little, so three tenths
of a binary exponent come close to the decimal one from either side. -/
def coarseGrid (x : Cell) : Int :=
  let bits := x.exponent + x.mantissa.log2 + 2
  max (bits * 31 / 100) (bits * 30 / 100) + 1

/-- The shortest decimal of the number. A multiple of a power of two is also a multiple of that
power of ten where the exponent is negative, so the search ends there at the latest. -/
def shortest (x : Cell) : Decimal :=
  x.shortestFrom (x.coarseGrid - min x.exponent 0).toNat x.coarseGrid

end Cell
end Binary64
end LineCalc
