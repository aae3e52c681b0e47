import ParetoSweep.Candidate.Scorer
import ParetoSweep.Front.Basic
import ParetoSweep.Search.Cube
import ParetoSweep.Search.Grid

/-!
# Exhaustive search

A search lists all assignments of a problem, evaluates every one of them and keeps the front. Whatever can fail fails
before the first evaluation: an unsound configuration, then an unsound problem, then too many variables, then too many
assignments.
-/

namespace ParetoSweep
namespace Search

/-- All assignments of a problem in the order of a strategy. -/
def listing (strategy : Strategy) (p : Problem) (c : Config) (host : Host) : Except Failure (List Assignment) :=
  match strategy with
  | .binary => (Cube.ofThreshold p.dimension c.splitThreshold).assignments host
  | .mixed => Grid.assignments p.decisions host

/-- All assignments of a problem that is not too large, whether it is sound or not. -/
def assignments (p : Problem) (c : Config) (host : Host) : Except Failure (List Assignment) := do
  let strategy := Strategy.ofProblem p
  strategy.checkSize p.dimension c
  listing strategy p c host

/-- The strategy of a search whose configuration and problem are sound and which is not too large. -/
def approve (p : Problem) (c : Config) : Except Failure Strategy := do
  if let some defect := c.defect? then throw (.invalidConfig defect)
  if let some defect := p.defect? then throw (.invalidProblem defect)
  let strategy := Strategy.ofProblem p
  strategy.checkSize p.dimension c
  return strategy

/-- Runs a computation for every item, either all with the one stream of the seed, or item `i` with the stream of the
seed plus `i`. -/
def forEach {α β : Type} (streamPerItem : Bool) (seed : UInt64) (f : α → StateM Stream β) (items : List α) : List β :=
  if streamPerItem then items.zipIdx.map fun (item, i) => ((f item).run (.ofSeed (seed + i.toUInt64))).1
  else ((items.mapM f).run (.ofSeed seed)).1

/-- What a search found. -/
structure Result where
  strategy : Strategy
  candidates : Nat
  front : Front

/-- A result in writing, given the time that it took. -/
def Result.summary (r : Result) (milliseconds : Nat) : String :=
  s!"{r.front.size} Pareto Optimal solution(s) found in {milliseconds}ms."

/-- The candidates that the assignments make. -/
def evaluateAll (p : Problem) (c : Config) (host : Host) (as : List Assignment) : List Candidate :=
  forEach c.streamPerCandidate (c.seed.getD host.seed) (Scorer.ofProblem p).evaluate as

/-- Searches a problem exhaustively. The number of candidates is known to fit into a machine word before they are
listed. -/
def run (p : Problem) (c : Config) (host : Host) : Except Failure Result := do
  let strategy ← approve p c
  let _ ← Grid.size p.decisions
  let as ← listing strategy p c host
  return ⟨strategy, as.length, .ofList (evaluateAll p c host as)⟩

/-- Searches a problem with the standard settings. -/
def solve (p : Problem) (host : Host) : Except Failure Result := run p .standard host

end Search
end ParetoSweep
