/-!
# Relations between two sides

A constraint that does not hold is violated by the difference of its sides if they are in the opposite order, and by
one if they are not ordered at all or if they ought to differ.
-/

namespace ParetoSweep

/-- What a constraint asks of its two sides. -/
inductive Relation where
  | atMost
  | atLeast
  | differs
deriving DecidableEq, Repr

namespace Relation

/-- Whether the relation holds; no order holds with NaN, which differs from everything. -/
def holds : Relation → Float → Float → Bool
  | atMost, x, y => x ≤ y
  | atLeast, x, y => y ≤ x
  | differs, x, y => x != y

/-- Whether the sides are ordered the other way round. -/
def opposed : Relation → Float → Float → Bool
  | atMost, x, y => y ≤ x
  | atLeast, x, y => x ≤ y
  | differs, _, _ => false

/-- The sign of a relation. -/
def symbol : Relation → String
  | atMost => "<="
  | atLeast => ">="
  | differs => "!="

/-- By how much the relation fails: zero if it holds, and of either sign if not. -/
def violation (r : Relation) (x y : Float) : Float :=
  if r.holds x y then 0.0
  else if r.opposed x y then x - y
  else 1.0

/-- A relation that holds is not violated. -/
theorem violation_of_holds {r : Relation} {x y : Float} (h : r.holds x y = true) : r.violation x y = 0.0 := by
  rw [violation, if_pos h]

end Relation
end ParetoSweep
