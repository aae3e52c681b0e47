import ParetoSweep.Number.Integral

/-!
# Remainder of doubles

Over the smaller of two exponents both operands are whole, so the remainder of a truncated division is one exact
remainder of natural numbers. It is never rounded: it is below the divisor and a multiple of a power of two that one
of the operands is a multiple of.
-/

namespace ParetoSweep
namespace Number

open Float.Model (UnpackedFloat)

/-- What is left of `x` after taking away as many whole `y` as fit; it has the sign of `x`. There is no remainder of
an infinite number or by zero, and an infinite divisor fits no time at all. -/
def remainder (x y : Float) : Float :=
  match x.toModel.unpack, y.toModel.unpack with
  | .finite sign m e _, .finite _ n f _ =>
    let least := min e f
    scaled (sign.apply ((m <<< (e - least).toNat) % (n <<< (f - least).toNat) : Nat)) least sign
  | .finite .., .infinity _ => x
  | .zero _, .finite .. => x
  | .zero _, .infinity _ => x
  | _, _ => nan

end Number
end ParetoSweep
