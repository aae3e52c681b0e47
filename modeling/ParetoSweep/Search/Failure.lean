import ParetoSweep.Problem.Defect
import ParetoSweep.Search.Strategy

/-!
# Why a search fails

A search fails before it evaluates anything: the configuration or the problem is not sound, there are too many
variables, or there is no room for the assignments.
-/

namespace ParetoSweep

/-- Why there is no result; a number of assignments that no machine word holds is given as the largest one it holds. -/
inductive Failure where
  | domainTooLarge (strategy : Strategy) (dimension limit : Nat)
  | resourceExhausted (candidates : Nat)
  | invalidProblem (defect : Defect)
  | invalidConfig (defect : Config.Defect)
deriving DecidableEq

namespace Failure

/-- A failure in words; what is wrong with a problem is told by the defect. -/
def message : Failure → String
  | domainTooLarge strategy dimension limit =>
    s!"too many decision variables for {strategy.text} enumeration: {dimension} (limit is fewer than {limit})"
  | resourceExhausted candidates => s!"not enough memory to hold {candidates} candidates"
  | invalidProblem _ => "invalid problem"
  | invalidConfig defect => s!"invalid config: {defect.message}"

end Failure

/-- Admits fewer variables than the limit of the strategy. -/
def Strategy.checkSize (s : Strategy) (dimension : Nat) (c : Config) : Except Failure Unit :=
  if dimension < s.limit c then .ok () else .error (.domainTooLarge s dimension (s.limit c))

end ParetoSweep
