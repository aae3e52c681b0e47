import ParetoSweep.Search.Run

/-!
# The journal of a search

What a search did is told by a list of records, each of which is a function of the same stages that make up the search:
a stage that fails leaves no record of its own, and nothing after it is recorded.
-/

namespace ParetoSweep

/-- How important a record is. -/
inductive Level where
  | debug
  | info
  | warn
deriving DecidableEq, Repr

/-- The name of a level. -/
def Level.text : Level → String
  | debug => "DEBUG"
  | info => "INFO"
  | warn => "WARN"

/-- Something that happened in a search. -/
inductive Record where
  | workers (team : Nat)
  | binaryListing (dimension candidates threshold : Nat)
  | mixedListing (dimension candidates : Nat)
  | unreadable (location : String) (fault : Fault)
  | started (problem : String) (dimension : Nat) (strategy : Strategy) (candidates team : Nat)
  | undefinedObjective (expression : String) (values : List Float)
  | finished (problem : String) (optimal candidates : Nat)

namespace Record

/-- The importance of a record. -/
def level : Record → Level
  | workers _ => .debug
  | binaryListing .. => .debug
  | mixedListing .. => .debug
  | unreadable .. => .warn
  | started .. => .info
  | undefinedObjective .. => .warn
  | finished .. => .info

/-- A record in words, given the time that the search took. -/
def text (milliseconds : Nat) : Record → String
  | workers team => s!"building dedicated worker pool with {team} threads"
  | binaryListing dimension candidates threshold =>
    s!"binary enumeration of {dimension} variables: {candidates} candidates, split threshold {threshold}"
  | mixedListing dimension candidates =>
    s!"mixed enumeration of {dimension} variables: {candidates} candidates"
  | unreadable location fault => s!"{location} does not parse and evaluates to NaN: {fault.message}"
  | started problem dimension strategy candidates team =>
    s!"solving '{problem}': {dimension} variables, {strategy.text} strategy, {candidates} candidates, "
      ++ s!"{team} worker threads"
  | undefinedObjective expression values =>
    let shown := String.intercalate ", " (values.map Number.markedText)
    s!"objective '{expression}' is not a number at [{shown}]; such candidates are kept as infeasible"
  | finished problem optimal candidates =>
    s!"solved '{problem}': {optimal} Pareto optimal of {candidates} candidates in {milliseconds}ms"

end Record

namespace Cube

/-- The records of listing a cube. -/
def journal (c : Cube) : List Record :=
  if 63 ≤ c.dimension then [] else [.binaryListing c.dimension (1 <<< c.dimension) c.threshold]

end Cube

namespace Grid

/-- The records of listing a grid. -/
def journal (vs : List Variable) : List Record :=
  match size vs with
  | .ok candidates => [.mixedListing vs.length candidates]
  | .error _ => []

end Grid

namespace Scorer

/-- The record of the first assignment in a list of attempts that has no value for some objective. -/
def journal (p : Problem) (attempts : List (Assignment × Except Nat Scores)) : List Record :=
  (attempts.findSome? fun (a, attempt) =>
    match attempt with
    | .ok _ => none
    | .error index => p.objectives[index]?.map fun o => .undefinedObjective o.expression a.decoded).toList

end Scorer

namespace Search

/-- The record of workers that the configuration asks for. -/
def workersJournal (c : Config) : List Record := (c.workers.map Record.workers).toList

/-- The records of listing the assignments of a problem. -/
def listingJournal (strategy : Strategy) (p : Problem) (c : Config) : List Record :=
  match strategy with
  | .binary => (Cube.ofThreshold p.dimension c.splitThreshold).journal
  | .mixed => Grid.journal p.decisions

/-- The records of a listing on its own. -/
def assignmentsJournal (p : Problem) (c : Config) : List Record :=
  let strategy := Strategy.ofProblem p
  workersJournal c ++
    match strategy.checkSize p.dimension c with
    | .ok () => listingJournal strategy p c
    | .error _ => []

/-- The records of evaluating the assignments. -/
def evaluationJournal (p : Problem) (c : Config) (host : Host) (as : List Assignment) : List Record :=
  let scorer := Scorer.ofProblem p
  let attempt := fun (a : Assignment) => do return (a, ← (scorer.scores a).run)
  Scorer.journal p (forEach c.streamPerCandidate (c.seed.getD host.seed) attempt as)

/-- The records of a search. -/
def journal (p : Problem) (c : Config) (host : Host) : List Record :=
  match approve p c with
  | .error _ => []
  | .ok strategy =>
    (Scorer.ofProblem p).faults.map (fun (location, fault) => .unreadable location fault) ++
      match Grid.size p.decisions with
      | .error _ => []
      | .ok expected =>
        workersJournal c
          ++ .started p.name p.dimension strategy expected (c.workers.getD host.workers)
            :: listingJournal strategy p c
          ++ match listing strategy p c host with
            | .error _ => []
            | .ok as =>
              evaluationJournal p c host as
                ++ [.finished p.name (Front.ofList (evaluateAll p c host as)).size as.length]

end Search
end ParetoSweep
