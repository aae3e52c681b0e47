/-!
# Whole numbers in and around a double

A finite nonzero double is `± m · 2 ^ e` with whole `m` and `e`, so its neighbours among the whole numbers come out of
exact integer arithmetic on `m`: an arithmetic right shift of `± m` rounds towards minus infinity (`floor`), the same
shift of the opposite number towards plus infinity (`ceiling`). Both keep a number that is whole already, infinities,
NaN and the sign of a zero. `truncated` drops the fraction and stays within 64-bit range.
-/

namespace ParetoSweep
namespace Number

open Float.Model (UnpackedFloat)

/-- Positive infinity. -/
def infinity : Float := 1.0 / 0.0

/-- What is not a number. -/
def nan : Float := 0.0 / 0.0

/-- The double nearest to `n · 2 ^ e`, with the given sign if `n` is zero. -/
def scaled (n e : Int) (sign : UnpackedFloat.Sign) : Float :=
  .ofModel (.pack (.normalize .binary64 n e sign))

/-- The largest whole number that is not above `x`. -/
def floor (x : Float) : Float :=
  match x.toModel.unpack with
  | .finite sign m e _ => if e < 0 then scaled (sign.apply m >>> (-e).toNat) 0 sign else x
  | _ => x

/-- The smallest whole number that is not below `x`. -/
def ceiling (x : Float) : Float :=
  match x.toModel.unpack with
  | .finite sign m e _ => if e < 0 then scaled (-((-sign.apply m) >>> (-e).toNat)) 0 sign else x
  | _ => x

/-- The nearest whole number, a half going up. -/
def rounded (x : Float) : Float := floor (x + 0.5)

/-- The whole part of `x`, clamped to the signed 64-bit range; NaN counts as zero. -/
def truncated (x : Float) : Int64 :=
  .ofIntClamp (x.toModel.unpack.toInt Int64.minValue.toInt Int64.maxValue.toInt)

end Number
end ParetoSweep
