import ParetoSweep.Problem.Basic

/-!
# What can be wrong with a problem

A sound problem has a variable and an objective, and every variable has finite bounds in the right order and a positive
increment that is not lost to rounding between them. `Problem.defect?` finds the first thing wrong.
-/

namespace ParetoSweep

/-- Why a problem cannot be solved; variables are counted from zero. -/
inductive Defect where
  | noVariables
  | noObjectives
  | invertedBounds (index : Nat) (lower upper : Float)
  | nonFiniteBounds (index : Nat) (lower upper : Float)
  | nonPositiveIncrement (index : Nat) (increment : Float)
  | incrementBelowPrecision (index : Nat) (increment : Float)
deriving DecidableEq

namespace Defect

/-- A defect in words; variables are called by their names. -/
def message : Defect → String
  | noVariables => "problem has no decision variables"
  | noObjectives => "problem has no objectives"
  | invertedBounds index lower upper =>
    s!"variable {variableName index} has lower bound {Number.text lower} above upper bound {Number.text upper}"
  | nonFiniteBounds index lower upper =>
    s!"variable {variableName index} has non-finite bounds [{Number.text lower}, {Number.text upper}]"
  | nonPositiveIncrement index increment =>
    s!"variable {variableName index} has non-positive increment {Number.text increment}"
  | incrementBelowPrecision index increment =>
    s!"variable {variableName index} has increment {Number.text increment}, too small to step across its bounds"

end Defect

/-- The first thing wrong with the variable of a given index. Bounds that are not numbers count as inverted, and such
an increment as not positive. -/
def Variable.defect? (index : Nat) (v : Variable) : Option Defect :=
  let lower := v.lowerBound
  let upper := v.upperBound
  if ¬ lower ≤ upper then some (.invertedBounds index lower upper)
  else if ¬ (lower.isFinite ∧ upper.isFinite) then some (.nonFiniteBounds index lower upper)
  else if ¬ 0 < v.increment then some (.nonPositiveIncrement index v.increment)
  else if ¬ v.stepsAcrossBounds then some (.incrementBelowPrecision index v.increment)
  else none

/-- The first thing wrong with a problem. -/
def Problem.defect? (p : Problem) : Option Defect :=
  if p.decisions.isEmpty then some .noVariables
  else if p.objectives.isEmpty then some .noObjectives
  else p.decisions.zipIdx.findSome? fun (v, index) => v.defect? index

end ParetoSweep
