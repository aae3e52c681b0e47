import ParetoSweep.Decision.Walk
import ParetoSweep.Search.Failure
import ParetoSweep.Search.Host

/-!
# Combinations of domain points

The assignments of variables of any kind are all combinations of the points of their domains, the first variable
changing slowest. The number of combinations is known from the sizes of the domains before any of them is listed.
-/

namespace ParetoSweep
namespace Grid

/-- A number of combinations times the points of one more domain, if a machine word holds both. -/
def times (product : Nat) (v : Variable) : Except Failure Nat :=
  match v.domainSize? with
  | some n => if product * n ≤ countLimit then .ok (product * n) else .error (.resourceExhausted countLimit)
  | none => .error (.resourceExhausted countLimit)

/-- The number of all combinations, multiplied up from the first variable to the last. -/
def size (vs : List Variable) : Except Failure Nat := vs.foldlM times 1

/-- All combinations for variables of which the first has the given index. A walk that gets stuck is reported after
those behind it, and not at all if there is an empty domain in front of it. -/
def combine : (index : Nat) → List Variable → Except Failure (List Assignment)
  | _, [] => .ok [[]]
  | index, v :: vs =>
    let walk := Walk.through v
    if walk.points.isEmpty then .ok []
    else do
      let tails ← combine (index + 1) vs
      if walk.stuck then throw (.invalidProblem (.incrementBelowPrecision index v.increment))
      return walk.points.flatMap fun point => tails.map (point :: ·)

/-- All combinations, if the machine has room for as many as there should be. -/
def assignments (vs : List Variable) (host : Host) : Except Failure (List Assignment) := do
  let expected ← size vs
  if host.capacity < expected then throw (.resourceExhausted expected)
  combine 0 vs

end Grid
end ParetoSweep
