import ParetoSweep.Problem.Basic
import ParetoSweep.Search.Config

/-!
# Strategies

Problems of yes/no decisions are searched by counting through bit patterns, all others by walking through the domains.
-/

namespace ParetoSweep

/-- How the assignments of a problem are listed. -/
inductive Strategy where
  | binary
  | mixed
deriving DecidableEq, Repr

namespace Strategy

/-- A strategy in writing. -/
def text : Strategy → String
  | binary => "binary"
  | mixed => "mixed"

/-- The strategy that suits a problem. -/
def ofProblem (p : Problem) : Strategy := if p.allBinary then binary else mixed

/-- The number of variables that is too many. -/
def limit : Strategy → Config → Nat
  | binary, c => c.binaryLimit
  | mixed, c => c.mixedLimit

end Strategy
end ParetoSweep
