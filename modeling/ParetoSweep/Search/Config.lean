/-!
# Configuration of a search

Two limits bound how many variables a search takes on. The other settings say how the work is split among workers and
where random numbers come from; of these only `seed` and `streamPerCandidate` can show in the result, and only if some
formula draws random numbers.
-/

namespace ParetoSweep

/-- How to search. -/
structure Config where
  /-- Ranges of bit patterns with fewer members than this are not split any further. -/
  splitThreshold : Nat
  /-- Problems of yes/no decisions must have fewer variables than this. -/
  binaryLimit : Nat
  /-- All other problems must have fewer variables than this. -/
  mixedLimit : Nat
  /-- Whether both halves of a range may be listed at the same time. -/
  parallelListing : Bool
  /-- Whether candidates may be evaluated at the same time, each with a stream of random numbers of its own. -/
  streamPerCandidate : Bool
  /-- How many workers share the work, if not as many as the machine offers. -/
  workers : Option Nat
  /-- The seed of the random numbers, if they are to be reproducible. -/
  seed : Option UInt64
deriving DecidableEq, Repr

namespace Config

/-- The split threshold for which none is given. -/
def defaultThreshold : Nat := 65536

/-- The settings for which none are given. -/
def standard : Config where
  splitThreshold := defaultThreshold
  binaryLimit := 20
  mixedLimit := 8
  parallelListing := true
  streamPerCandidate := false
  workers := none
  seed := none

/-- One thing at a time. -/
def sequential : Config := { standard with parallelListing := false }

/-- Reproducible random numbers. -/
def deterministic (seed : UInt64) : Config := { standard with seed := some seed }

/-- What can be wrong with a configuration. -/
inductive Defect where
  | thresholdTooSmall
  | noBinaryVariables
  | noMixedVariables
  | noWorkers
deriving DecidableEq, Repr

/-- A defect in words. -/
def Defect.message : Defect → String
  | thresholdTooSmall => "binary_threshold must be at least 2"
  | noBinaryVariables => "max_binary_variables must be at least 1"
  | noMixedVariables => "max_mixed_variables must be at least 1"
  | noWorkers => "num_threads must be positive or None"

/-- The first thing wrong with a configuration. -/
def defect? (c : Config) : Option Defect :=
  if c.splitThreshold < 2 then some .thresholdTooSmall
  else if c.binaryLimit = 0 then some .noBinaryVariables
  else if c.mixedLimit = 0 then some .noMixedVariables
  else if c.workers = some 0 then some .noWorkers
  else none

end Config
end ParetoSweep
