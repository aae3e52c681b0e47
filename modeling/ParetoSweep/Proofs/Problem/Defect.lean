import ParetoSweep.Problem.Defect

/-!
# Sound variables and problems

A variable without a defect has finite bounds in the right order, as doubles, and a positive increment that moves the
bound farther from zero (`Variable.Sound`). A problem without a defect has a variable, an objective and sound variables
only (`Problem.defect?_eq_none_iff`).
-/

namespace ParetoSweep

namespace Variable

/-- What a variable without a defect is checked for. -/
structure Sound (v : Variable) : Prop where
  ordered : v.lowerBound ≤ v.upperBound
  finite_lower : v.lowerBound.isFinite = true
  finite_upper : v.upperBound.isFinite = true
  increment_pos : 0 < v.increment
  steps : v.stepsAcrossBounds = true

/-- A variable has no defect exactly if it is sound, whatever its index. -/
theorem defect?_eq_none_iff (index : Nat) (v : Variable) : v.defect? index = none ↔ v.Sound := by
  unfold defect?
  dsimp only
  constructor
  · intro h
    split at h
    case isTrue => cases h
    case isFalse hordered =>
      split at h
      case isTrue => cases h
      case isFalse hfinite =>
        split at h
        case isTrue => cases h
        case isFalse hpos =>
          split at h
          case isTrue => cases h
          case isFalse hsteps =>
            simp only [Decidable.not_not] at hordered hfinite hpos hsteps
            exact ⟨hordered, hfinite.1, hfinite.2, hpos, hsteps⟩
  · rintro ⟨hordered, hlower, hupper, hpos, hsteps⟩
    simp [hordered, hlower, hupper, hpos, hsteps]

end Variable

/-- A problem has no defect exactly if there is something to decide and to ask for and all variables are sound. -/
theorem Problem.defect?_eq_none_iff (p : Problem) :
    p.defect? = none ↔ p.decisions ≠ [] ∧ p.objectives ≠ [] ∧ ∀ v ∈ p.decisions, v.Sound := by
  unfold Problem.defect?
  simp only [List.isEmpty_iff]
  split
  case isTrue hdecisions => simp [hdecisions]
  case isFalse hdecisions =>
    split
    case isTrue hobjectives => simp [hobjectives]
    case isFalse hobjectives =>
      simp only [List.findSome?_eq_none_iff, Variable.defect?_eq_none_iff, Prod.forall, ne_eq, hdecisions, hobjectives,
        not_false_eq_true, true_and]
      constructor
      · intro h v hv
        obtain ⟨i, hi⟩ := List.mem_iff_getElem?.mp hv
        exact h v i (List.mem_zipIdx_iff_getElem?.mpr hi)
      · intro h v i hv
        exact h v (List.fst_mem_of_mem_zipIdx hv)

end ParetoSweep
