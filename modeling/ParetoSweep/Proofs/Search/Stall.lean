import ParetoSweep.Proofs.Decision.Stall
import ParetoSweep.Proofs.Search.Blocked
import ParetoSweep.Proofs.Search.Empty
import ParetoSweep.Proofs.Search.Size

/-!
# Searches that reject a problem after its check

The check of a problem looks at the increment of a real variable where it is most likely to be lost, at the wider bound.
A sound problem can still be rejected while its assignments are listed, namely if the increment of a variable is lost
next to that bound (`Variable.Stalls`).
-/

namespace ParetoSweep

/-- A variable that stalls and has no swapped bounds in front of it. -/
structure Problem.StallsAt (p : Problem) (i : Nat) (v : Variable) : Prop where
  here : p.decisions[i]? = some v
  stalls : v.Stalls
  reached : ∀ u ∈ p.decisions.take i, ¬ u.Swapped

namespace Search

variable {p : Problem} {c : Config} {host : Host} {d : Defect}

/-- What the check of a problem rejects is not sound. -/
theorem approve_ne_invalidProblem (hsound : p.defect? = none) : approve p c ≠ .error (.invalidProblem d) := by
  intro h
  cases hconfig : c.defect? with
  | some defect => simp [approve_of_config_defect hconfig] at h
  | none =>
    rw [approve_of_sound hconfig hsound, Strategy.checkSize] at h
    split at h <;> cases h

/-- Listing rejects a problem only if the number of its assignments is known and fits. -/
theorem listing_eq_invalidProblem_iff : listing (Strategy.ofProblem p) p c host = .error (.invalidProblem d) ↔
    (∃ n ≤ host.capacity, Grid.size p.decisions = .ok n) ∧ Grid.combine 0 p.decisions = .error (.invalidProblem d) := by
  unfold Strategy.ofProblem
  cases hall : p.allBinary with
  | true =>
    rw [if_pos rfl, decisions_eq_replicate hall, Cube.combine_replicate]
    refine ⟨fun h => ?_, fun h => nomatch h.2⟩
    simp only [listing, Cube.assignments] at h
    split at h
    · cases h
    · split at h <;> cases h
  | false =>
    rw [if_neg Bool.false_ne_true]
    simp only [listing, Grid.assignments]
    cases hsize : Grid.size p.decisions with
    | error f =>
      rw [error_bind, Grid.size_eq_error hsize]
      simp
    | ok expected =>
      rw [ok_bind]
      split
      case isTrue hroom =>
        refine ⟨fun h => (nomatch h), fun ⟨⟨n, hn, heq⟩, _⟩ => ?_⟩
        cases heq
        omega
      case isFalse hroom =>
        exact ⟨fun h => ⟨⟨expected, Nat.not_lt.mp hroom, rfl⟩, h⟩, fun h => h.2⟩

/-- In a sound problem a variable is in the way of the listing iff it stalls. -/
theorem blocks_iff (hsound : p.defect? = none) {i : Nat} {v : Variable} :
    Grid.Blocks p.decisions i v ↔ p.StallsAt i v := by
  have hvariables := (p.defect?_eq_none_iff.mp hsound).2.2
  have hempty : (∀ u ∈ p.decisions.take i, ¬ u.Empty) ↔ ∀ u ∈ p.decisions.take i, ¬ u.Swapped :=
    forall₂_congr fun u hu => not_congr (empty_iff_swapped hsound (List.mem_of_mem_take hu))
  constructor
  · rintro ⟨hhere, hstuck, hreached⟩
    have hv := hvariables v (List.mem_of_getElem? hhere)
    exact ⟨hhere, (Walk.stuck_through_iff hv).mp hstuck, hempty.mp hreached⟩
  · rintro ⟨hhere, hstalls, hreached⟩
    have hv := hvariables v (List.mem_of_getElem? hhere)
    exact ⟨hhere, (Walk.stuck_through_iff hv).mpr hstalls, hempty.mpr hreached⟩

/-- The listing of a sound problem reports the last variable that stalls. -/
theorem combine_eq_invalidProblem_iff (hsound : p.defect? = none) :
    Grid.combine 0 p.decisions = .error (.invalidProblem d) ↔
      ∃ i v, p.StallsAt i v ∧ (∀ j u, p.StallsAt j u → j ≤ i) ∧ d = .incrementBelowPrecision i v.increment := by
  simp only [Grid.combine_eq_error_iff, Grid.lastBlock_iff, blocks_iff hsound, Failure.invalidProblem.injEq,
    Nat.zero_add, and_assoc]

/-- **A search rejects a sound problem exactly if some variable stalls**, and names the last one that is reached. The
configuration is checked by then, the limit is kept and the number of assignments is known to fit. The walk through a
sound variable gets stuck only if it stalls. -/
theorem run_eq_invalidProblem_iff (hsound : p.defect? = none) :
    (∀ v ∈ p.decisions, (Walk.through v).stuck = true ↔ v.Stalls) ∧
      (run p c host = .error (.invalidProblem d) ↔
        c.defect? = none ∧ p.dimension < (Strategy.ofProblem p).limit c ∧
          (∃ n ≤ host.capacity, Grid.size p.decisions = .ok n) ∧
          ∃ i v, p.StallsAt i v ∧ (∀ j u, p.StallsAt j u → j ≤ i) ∧ d = .incrementBelowPrecision i v.increment) := by
  refine ⟨fun v hv => Walk.stuck_through_iff ((p.defect?_eq_none_iff.mp hsound).2.2 v hv), ?_⟩
  rw [← combine_eq_invalidProblem_iff hsound, ← listing_eq_invalidProblem_iff (c := c), run_eq_error_iff]
  constructor
  · rintro (h | ⟨strategy, happrove, h | ⟨n, hn, hlisting⟩⟩)
    · exact absurd h (approve_ne_invalidProblem hsound)
    · cases Grid.size_eq_error h
    · obtain ⟨hconfig, -, hdim, rfl⟩ := approve_eq_ok_iff.mp happrove
      exact ⟨hconfig, hdim, hlisting⟩
  · rintro ⟨hconfig, hdim, hlisting⟩
    obtain ⟨⟨n, -, hn⟩, -⟩ := listing_eq_invalidProblem_iff.mp hlisting
    exact Or.inr ⟨_, approve_eq_ok_iff.mpr ⟨hconfig, hsound, hdim, rfl⟩, Or.inr ⟨n, hn, hlisting⟩⟩

/-- A real variable between `2 ^ 53` and the next but one double, with steps of one: half of the last place. -/
def halfSteps : Problem where
  name := "half steps"
  decisions := [.real 9007199254740992.0 9007199254740994.0 1.0]
  objectives := [⟨.minimize, "x1"⟩]
  constraints := []

theorem run_eq_invalidProblem_halfSteps : ∃ i v, halfSteps.StallsAt i v ∧
    Defect.incrementBelowPrecision 0 1.0 = .incrementBelowPrecision i v.increment := by
  have hsound : halfSteps.defect? = none := by decide +kernel
  have hrun : run halfSteps .standard .standard = .error (.invalidProblem (.incrementBelowPrecision 0 1.0)) := by rfl
  obtain ⟨-, -, -, i, v, hstalls, -, hd⟩ := (run_eq_invalidProblem_iff hsound).2.mp hrun
  exact ⟨i, v, hstalls, hd⟩

/-- A sound problem is rejected: the increment moves the wider bound, but not the lower one, at which the walk
starts. -/
theorem exists_run_eq_invalidProblem : ∃ p c host d, p.defect? = none ∧
    run p c host = .error (.invalidProblem d) ∧ ∃ lower upper increment, .real lower upper increment ∈ p.decisions ∧
      (Variable.real lower upper increment).stepsAcrossBounds = true ∧ lower ≤ upper ∧
      (lower + increment == lower) = true := by
  have hsound : halfSteps.defect? = none := by decide +kernel
  have hrun : run halfSteps .standard .standard = .error (.invalidProblem (.incrementBelowPrecision 0 1.0)) := by rfl
  refine ⟨halfSteps, .standard, .standard, _, hsound, hrun, _, _, _, List.mem_singleton_self _, ?_⟩
  decide +kernel

end Search
end ParetoSweep
