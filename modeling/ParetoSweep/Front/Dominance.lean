import ParetoSweep.Candidate.Basic

/-!
# Dominance

One list of objective values dominates another if it is smaller somewhere and larger nowhere. Of two candidates the one
that violates the constraints less dominates, and only between equal violations do the objectives decide.
-/

namespace ParetoSweep

/-- Which of two sides dominates the other. -/
inductive Dominance where
  | left
  | right
  | neither
deriving DecidableEq, Repr

namespace Dominance

/-- Compares objective values place by place, as far as both lists go. -/
def ofObjectives (xs ys : List Float) : Dominance :=
  match (xs.zip ys).any (fun (x, y) => x < y), (xs.zip ys).any (fun (x, y) => y < x) with
  | true, false => left
  | false, true => right
  | _, _ => neither

/-- Compares candidates. -/
def ofCandidates (a b : Candidate) : Dominance :=
  if a.measure < b.measure then left
  else if b.measure < a.measure then right
  else ofObjectives a.objectives b.objectives

end Dominance

/-- Whether two candidates have equal violations and equal objectives. -/
def Candidate.ties (a b : Candidate) : Bool := a.measure == b.measure && a.objectives == b.objectives

/-- Whether a candidate leaves no place for another one: it dominates or ties it. -/
def Candidate.excludes (a b : Candidate) : Bool :=
  match Dominance.ofCandidates a b with
  | .left => true
  | .right => false
  | .neither => a.ties b

end ParetoSweep
