import ParetoSweep.Decision.Variable

/-!
# Walking through a domain

The points of a real variable are found by adding the increment again and again, rounding each time, until the upper
bound is passed. Far from zero the increment may be lost to rounding; the walk then stops, and says so.

A walk that goes on reaches a larger double every time, so it takes at most as many steps as there are doubles between
the bounds, and `Number.rank` counts them.
-/

namespace ParetoSweep

/-- The points of a variable in increasing order, and whether the walk got stuck on the last one. -/
structure Walk where
  points : List Value
  stuck : Bool

namespace Walk

/-- One point more in front of a walk. -/
def cons (point : Value) (w : Walk) : Walk := ⟨point :: w.points, w.stuck⟩

/-- At most `steps` steps from `x` up to `upper`. -/
def climb (upper increment : Float) : (steps : Nat) → (x : Float) → Walk
  | 0, _ => ⟨[], false⟩
  | steps + 1, x =>
    if x ≤ upper then
      let next := x + increment
      if next == x then ⟨[.real x], true⟩ else (climb upper increment steps next).cons (.real x)
    else ⟨[], false⟩

/-- The walk from `lower` to `upper`; there is none unless the increment is positive. -/
def reals (lower upper increment : Float) : Walk :=
  if 0 < increment then climb upper increment ((Number.rank upper - Number.rank lower).toNat + 1) lower
  else ⟨[], false⟩

/-- The integers from `lower` to `upper`. -/
def integers (lower upper : Int64) : List Value :=
  (List.range (upper.toInt - lower.toInt + 1).toNat).map fun (k : Nat) => .integer (.ofInt (lower.toInt + k))

/-- The walk through the domain of a variable. -/
def through : Variable → Walk
  | .binary => ⟨[.binary false, .binary true], false⟩
  | .integer lower upper => ⟨integers lower upper, false⟩
  | .real lower upper increment => reals lower upper increment

end Walk
end ParetoSweep
