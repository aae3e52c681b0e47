import ParetoSweep.Candidate.Basic
import ParetoSweep.Formula.Basic
import ParetoSweep.Problem.Basic

/-!
# Scoring assignments

A scorer holds the formulas of a problem, read once. A formula that cannot be read is kept as its fault and is NaN for
every assignment, as is one that mentions a name without a value.

The objectives are evaluated in order and before the constraints, the left side of a constraint before the right one,
all with one stream of random numbers. The first objective that is NaN ends the evaluation.
-/

namespace ParetoSweep

/-- A formula, or why it could not be read. -/
abbrev Reading := Except Fault Formula

namespace Reading

/-- The value of a formula, NaN if there is none. -/
def value (r : Reading) (bindings : Bindings) : StateM Stream Float :=
  match r with
  | .ok formula => do return Formula.orNaN (← (formula.eval bindings).run)
  | .error _ => return Number.nan

/-- The fault of a formula that could not be read, with a label in front. -/
def labelled (r : Reading) (label : String) : Option (String × Fault) :=
  match r with
  | .ok _ => none
  | .error fault => some (label, fault)

end Reading

/-- The formulas of a constraint. -/
structure ConstraintReading where
  left : Reading
  relation : Relation
  right : Reading

/-- The formulas of a problem. -/
structure Scorer where
  names : List String
  objectives : List (Sense × Reading)
  constraints : List ConstraintReading

/-- A computation that draws random numbers and may end at an objective, given by its index, that has no value. -/
abbrev Scoring := ExceptT Nat (StateM Stream)

namespace Scorer

/-- Reads all formulas of a problem. -/
def ofProblem (p : Problem) : Scorer where
  names := p.names
  objectives := p.objectives.map fun o => (o.sense, Formula.parse o.expression)
  constraints := p.constraints.map fun c => ⟨Formula.parse c.left, c.relation, Formula.parse c.right⟩

/-- Why formulas could not be read, with the places where they stand, objectives first. -/
def faults (s : Scorer) : List (String × Fault) :=
  (s.objectives.zipIdx 1).filterMap (fun ((_, r), i) => r.labelled s!"f({i})")
    ++ ((s.constraints.zipIdx 1).map fun (c, i) =>
      [c.left.labelled s!"constraint {i} lhs", c.right.labelled s!"constraint {i} rhs"].filterMap id).flatten

/-- The names of the variables with their values, as many as there are of both. -/
def bindings (s : Scorer) (a : Assignment) : Bindings := s.names.zip a.decoded

/-- The oriented values of the objectives. -/
def objectiveValues (s : Scorer) (bindings : Bindings) : Scoring (List Float) :=
  s.objectives.zipIdx.mapM fun ((sense, r), index) => do
    let x ← r.value bindings
    if x.isNaN then throw index
    return sense.oriented x

/-- The violations of the constraints. -/
def violationValues (s : Scorer) (bindings : Bindings) : StateM Stream (List Float) :=
  s.constraints.mapM fun c => do
    let x ← c.left.value bindings
    let y ← c.right.value bindings
    return c.relation.violation x y

/-- The scores of an assignment. -/
def scores (s : Scorer) (a : Assignment) : Scoring Scores := do
  let objectives ← s.objectiveValues (s.bindings a)
  let violations ← s.violationValues (s.bindings a)
  return ⟨objectives, violations⟩

/-- The candidate that an attempt to score an assignment makes. -/
def candidate (s : Scorer) (a : Assignment) : Except Nat Scores → Candidate
  | .ok scores => ⟨a, .scored scores⟩
  | .error _ => ⟨a, .unscored s.objectives.length s.constraints.length⟩

/-- Evaluates an assignment. -/
def evaluate (s : Scorer) (a : Assignment) : StateM Stream Candidate := do
  return s.candidate a (← (s.scores a).run)

end Scorer
end ParetoSweep
