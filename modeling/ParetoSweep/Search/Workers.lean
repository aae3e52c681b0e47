import ParetoSweep.Search.Run

/-!
# Searches by teams of workers

A search leaves to a team of workers what may be done at the same time: the two halves of a range of bit patterns, and
the candidates if each has a stream of random numbers of its own. What a team makes of it is part of the team, so a
search by a team is a function again.
-/

namespace ParetoSweep

/-- How computations are shared among workers. -/
structure Team where
  /-- Runs two computations, possibly at the same time. -/
  join {α β : Type} (left : Unit → α) (right : Unit → β) : α × β
  /-- Runs a computation for every item, possibly several at the same time. -/
  collect {α β : Type} (f : α → β) (items : List α) : List β

namespace Team

/-- A team that takes up first what comes last. -/
def lastFirst : Team where
  join left right :=
    let second := right ()
    (left (), second)
  collect f items := (items.reverse.map f).reverse

/-- A team that gives both results of a pair of computations, and those for a list of items in their order. -/
structure Reliable (team : Team) : Prop where
  join_eq {α β : Type} (left : Unit → α) (right : Unit → β) : team.join left right = (left (), right ())
  collect_eq {α β : Type} (f : α → β) (items : List α) : team.collect f items = items.map f

end Team

namespace Cube

/-- The assignments of the `2 ^ k` patterns from `start` on, listed by a team if that is allowed. -/
def rangeBy (team : Team) (parallel : Bool) (c : Cube) : (k : Nat) → (start : UInt64) → List Assignment
  | 0, start => block c.dimension start 1
  | k + 1, start =>
    if 1 <<< (k + 1) < c.threshold then block c.dimension start (1 <<< (k + 1))
    else
      let left := fun () => c.rangeBy team parallel k start
      let right := fun () => c.rangeBy team parallel k (start + 1 <<< k.toUInt64)
      let (firstHalf, secondHalf) := if parallel then team.join left right else (left (), right ())
      firstHalf ++ secondHalf

/-- All assignments, listed by a team, if the machine has room for them. -/
def assignmentsBy (team : Team) (parallel : Bool) (c : Cube) (host : Host) : Except Failure (List Assignment) :=
  if 63 ≤ c.dimension then .error (.resourceExhausted countLimit)
  else if host.capacity < 1 <<< c.dimension then .error (.resourceExhausted (1 <<< c.dimension))
  else .ok (c.rangeBy team parallel c.dimension 0)

end Cube

namespace Search

/-- All assignments of a problem in the order of a strategy, where only bit patterns are shared out. -/
def listingBy (team : Team) (strategy : Strategy) (p : Problem) (c : Config) (host : Host) :
    Except Failure (List Assignment) :=
  match strategy with
  | .binary => (Cube.ofThreshold p.dimension c.splitThreshold).assignmentsBy team c.parallelListing host
  | .mixed => Grid.assignments p.decisions host

/-- The candidates that the assignments make, where only candidates with streams of their own are shared out. -/
def evaluateAllBy (team : Team) (p : Problem) (c : Config) (host : Host) (as : List Assignment) : List Candidate :=
  let seed := c.seed.getD host.seed
  let scorer := Scorer.ofProblem p
  if c.streamPerCandidate then
    team.collect (fun (a, i) => ((scorer.evaluate a).run (.ofSeed (seed + i.toUInt64))).1) as.zipIdx
  else ((as.mapM scorer.evaluate).run (.ofSeed seed)).1

/-- Searches a problem exhaustively with the team that the configuration asks for. -/
def runBy (staff : Option Nat → Team) (p : Problem) (c : Config) (host : Host) : Except Failure Result := do
  let strategy ← approve p c
  let _ ← Grid.size p.decisions
  let team := staff c.workers
  let as ← listingBy team strategy p c host
  return ⟨strategy, as.length, .ofList (evaluateAllBy team p c host as)⟩

end Search
end ParetoSweep
