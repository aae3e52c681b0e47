/-!
# The order of doubles

`rank` numbers the doubles in increasing order, both zeros at 0: neighbours have neighbouring ranks, so the distance of
two ranks bounds the length of any strictly increasing sequence of doubles between them.
-/

namespace ParetoSweep
namespace Number

/-- The position of `x` among the doubles, counted from zero. -/
def rank (x : Float) : Int :=
  match x.toModel.unpack with
  | .finite sign m e _ => sign.apply ((e + 1074) * 4503599627370496 + m)
  | .infinity sign => sign.apply 9218868437227405312
  | .zero _ => 0
  | .notANumber => 0

/-- The larger of two numbers, the second one if they are equal; a NaN gives way to the other number. -/
def larger (x y : Float) : Float := if y < x || y.isNaN then x else y

/-- The smaller of two numbers, the second one if they are equal; a NaN gives way to the other number. -/
def smaller (x y : Float) : Float := if x < y || y.isNaN then x else y

/-- The sum from left to right, which is `-0` if there is nothing to add. -/
def total (xs : List Float) : Float := xs.foldl (· + ·) (-0.0)

end Number
end ParetoSweep
