/-!
The remainder of a division whose quotient is cut off toward zero. It is computed exactly on the
two mantissas over their common exponent, so it never rounds, and it has the sign of the dividend.
-/

namespace LineCalc
namespace Binary64

open Float.Model

/-- There is no remainder of an infinite dividend or by zero; by an infinite divisor the dividend
itself remains. -/
def remainder (x y : Float) : Float :=
  match x.toModel.unpack, y.toModel.unpack with
  | .notANumber, _ | _, .notANumber | .infinity _, _ | _, .zero _ =>
    .ofModel (pack .notANumber)
  | .zero _, _ | .finite .., .infinity _ => x
  | .finite s m p _, .finite _ n q _ =>
    let least := min p q
    let left := (m * Nat.pow 2 (p - least).toNat) % (n * Nat.pow 2 (q - least).toNat)
    if left = 0 then
      .ofModel (pack (.zero s))
    else
      .ofModel (pack (UnpackedFloat.round Format.binary64 s left least))

end Binary64
end LineCalc
