import ParetoSweep.Decision.Value
import ParetoSweep.Number.Integral
import ParetoSweep.Number.Order

/-!
# Candidates

A candidate is an assignment together with what became of its evaluation. Objectives are turned so that smaller is
better. A candidate that has no value for some objective counts as infinitely bad in every respect.
-/

namespace ParetoSweep

/-- The values of the objectives and the violations of the constraints. -/
structure Scores where
  objectives : List Float
  violations : List Float
deriving DecidableEq

/-- What an evaluation came to; without scores only the numbers of objectives and constraints are known. -/
inductive Outcome where
  | scored (scores : Scores)
  | unscored (objectives constraints : Nat)
deriving DecidableEq

/-- An evaluated assignment. -/
structure Candidate where
  assignment : Assignment
  outcome : Outcome
deriving DecidableEq

namespace Candidate

/-- One value for each objective, smaller being better. -/
def objectives (c : Candidate) : List Float :=
  match c.outcome with
  | .scored scores => scores.objectives
  | .unscored n _ => List.replicate n Number.infinity

/-- One value for each constraint, zero if it holds. -/
def violations (c : Candidate) : List Float :=
  match c.outcome with
  | .scored scores => scores.violations
  | .unscored _ n => List.replicate n Number.infinity

/-- How far the constraints are violated altogether, regardless of signs. -/
def measure (c : Candidate) : Float :=
  match c.outcome with
  | .scored scores => Number.total (scores.violations.map Float.abs)
  | .unscored .. => Number.infinity

/-- Whether all objectives have values and all constraints hold. -/
def feasible (c : Candidate) : Bool := c.measure == 0.0

/-- A candidate without scores is not feasible. -/
theorem feasible_unscored (a : Assignment) (n m : Nat) : (⟨a, .unscored n m⟩ : Candidate).feasible = false := by
  show (Number.infinity == 0.0) = false
  decide +kernel

end Candidate
end ParetoSweep
