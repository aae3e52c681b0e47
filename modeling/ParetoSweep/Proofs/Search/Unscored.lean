import ParetoSweep.Proofs.Front.Unscored
import ParetoSweep.Proofs.Search.Run

/-!
# Searches that keep a candidate without scores

Whether the front of a search has a member without scores is decided by all its candidates together: it has one exactly
if the first candidate is without scores and all others are infinitely bad in every respect
(`run_keeps_unscored_iff`). Division by zero makes candidates that are infinitely bad but have scores, so that they do
not keep the first one out.
-/

namespace ParetoSweep
namespace Search

variable {p : Problem} {c : Config} {host : Host} {result : Result}

/-- **A search keeps a candidate without scores exactly if it comes first and no candidate is better in any respect**,
and this is all that it keeps then. -/
theorem run_keeps_unscored_iff (hrun : run p c host = .ok result) :
    ∃ as, Grid.combine 0 p.decisions = .ok as ∧ ∀ m : Candidate, m.hasScores = false →
      (m ∈ result.front.members ↔
        (evaluateAll p c host as).head? = some m ∧ ∀ d ∈ evaluateAll p c host as, d.Worst) ∧
      (m ∈ result.front.members → result.front.members = [m]) := by
  obtain ⟨-, as, has, rfl⟩ := run_eq_ok hrun
  have hcs := (comparable_evaluateAll p c host as).2
  refine ⟨as, has, fun m hm => ?_⟩
  rw [(keeps_ofList hcs).members]
  have hiff := mem_optimal_iff hcs hm
  refine ⟨hiff, fun hmem => ?_⟩
  obtain ⟨hhead, hworst⟩ := hiff.mp hmem
  obtain ⟨cs, heq⟩ := List.head?_eq_some_iff.mp hhead
  rw [heq] at hcs hworst ⊢
  exact optimal_eq_singleton hcs fun d hd =>
    (Candidate.unscored_ties_iff (hcs m List.mem_cons_self) (hcs d hd) hm).mpr (hworst d hd)

/-- A quotient that is NaN at zero and infinite at one, and a constraint that is never kept. -/
def overZero : Problem where
  name := "over zero"
  decisions := [.binary]
  objectives := [⟨.minimize, "x1/0"⟩]
  constraints := [⟨"1/0", .atMost, "0"⟩]

theorem run_keeps_unscored_overZero : ∃ result, run overZero .standard .standard = .ok result ∧
    ∃ as, Grid.combine 0 overZero.decisions = .ok as ∧ ∀ m : Candidate, m.hasScores = false →
      (m ∈ result.front.members ↔ (evaluateAll overZero .standard .standard as).head? = some m ∧
        ∀ d ∈ evaluateAll overZero .standard .standard as, d.Worst) ∧
      (m ∈ result.front.members → result.front.members = [m]) := by
  have hok : (run overZero .standard .standard).isOk = true := by decide +kernel
  obtain ⟨result, hrun⟩ := exists_eq_ok hok
  exact ⟨result, hrun, run_keeps_unscored_iff hrun⟩

/-- One of two candidates has scores, and the other one is kept. -/
theorem exists_run_keeps_unscored : ∃ p c host result as, run p c host = .ok result ∧
    Grid.combine 0 p.decisions = .ok as ∧ (∃ d ∈ evaluateAll p c host as, d.hasScores = true) ∧
    ∃ m ∈ result.front.members, m.hasScores = false := by
  have hkept : (run overZero .standard .standard).toOption.any (fun r => r.front.members.any fun m => !m.hasScores) =
      true := by decide +kernel
  have hscored : (evaluateAll overZero .standard .standard [[.binary false], [.binary true]]).any Candidate.hasScores =
      true := by decide +kernel
  cases hrun : run overZero .standard .standard with
  | error fault => rw [hrun] at hkept; cases hkept
  | ok result =>
    rw [hrun] at hkept
    refine ⟨overZero, .standard, .standard, result, _, hrun, rfl, List.any_eq_true.mp hscored, ?_⟩
    simpa [Except.toOption] using hkept

end Search
end ParetoSweep
