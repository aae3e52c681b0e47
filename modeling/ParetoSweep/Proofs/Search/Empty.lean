import ParetoSweep.Proofs.Decision.Empty
import ParetoSweep.Proofs.Search.Run

/-!
# Searches that find nothing

A grid has no combination exactly if some domain is empty (`combine_eq_nil_iff`), and a front is empty only if nothing
was offered to it (`ofList_members_eq_nil_iff`). So a search that succeeds comes back empty exactly if some integer
variable has swapped bounds that passed the check of the problem.
-/

namespace ParetoSweep

/-- A grid lists nothing iff some domain is empty. -/
theorem Grid.combine_eq_nil_iff {vs : List Variable} {index : Nat} {as : List Assignment}
    (h : Grid.combine index vs = .ok as) : as = [] ↔ ∃ v ∈ vs, v.Empty := by
  induction vs generalizing index as with
  | nil =>
    cases h
    simp
  | cons v vs ih =>
    have hpoints := v.points_eq_nil_iff
    obtain ⟨-, ⟨hnil, rfl⟩ | ⟨tails, htails, rfl⟩⟩ := Grid.combine_cons_eq_ok h
    · simp [hpoints.mp hnil]
    · simp only [List.mem_cons, exists_eq_or_imp, ← ih htails, ← hpoints, List.flatMap_eq_nil_iff, List.map_eq_nil_iff]
      cases (Walk.through v).points with
      | nil => simp
      | cons x xs =>
        simp only [List.forall_mem_cons, List.cons_ne_nil, false_or]
        exact ⟨fun h => h.1, fun h => ⟨h, fun _ _ => h⟩⟩

namespace Front

/-- Whether or not a candidate is admitted, there is a member afterwards. -/
theorem members_insert_ne_nil (f : Front) (c : Candidate) : (f.insert c).members ≠ [] := by
  cases hadmits : f.admits c with
  | true => simp [members_insert_of_admits hadmits]
  | false =>
    rw [insert_of_not_admits hadmits]
    intro hnil
    simp [admits, hnil] at hadmits

theorem ofList_members_eq_nil_iff (cs : List Candidate) : (ofList cs).members = [] ↔ cs = [] := by
  rcases List.eq_nil_or_concat cs with rfl | ⟨ds, c, rfl⟩
  · simp [ofList, extend, empty]
  · have hlast : ofList (ds ++ [c]) = (ofList ds).insert c := List.foldl_concat ..
    simp [hlast, members_insert_ne_nil]

end Front

namespace Search

variable {p : Problem} {c : Config} {host : Host} {result : Result}

/-- A search has no candidates iff some domain is empty. -/
theorem candidates_eq_zero_iff (hrun : run p c host = .ok result) :
    result.candidates = 0 ↔ ∃ v ∈ p.decisions, v.Empty := by
  obtain ⟨-, as, has, rfl⟩ := run_eq_ok hrun
  rw [← Grid.combine_eq_nil_iff has]
  exact List.length_eq_zero_iff

/-- A variable of a sound problem has an empty domain iff its bounds are swapped. -/
theorem empty_iff_swapped (hsound : p.defect? = none) {v : Variable} (hv : v ∈ p.decisions) : v.Empty ↔ v.Swapped := by
  have hv := ((p.defect?_eq_none_iff).mp hsound).2.2 v hv
  rw [← v.sound_and_empty_iff]
  exact ⟨fun h => ⟨hv, h⟩, fun h => h.2⟩

/-- Integers that doubles hold make sure that a search has candidates. -/
theorem candidates_pos (hrun : run p c host = .ok result)
    (hexact : ∀ lower upper, .integer lower upper ∈ p.decisions →
      lower.toInt.natAbs ≤ 9007199254740992 ∧ upper.toInt.natAbs ≤ 9007199254740992) : 0 < result.candidates := by
  refine Nat.pos_of_ne_zero fun hzero => ?_
  obtain ⟨v, hv, hempty⟩ := (candidates_eq_zero_iff hrun).mp hzero
  have hswapped := (empty_iff_swapped (run_eq_ok hrun).1 hv).mp hempty
  cases v with
  | binary => exact hswapped
  | real lower upper increment => exact hswapped
  | integer lower upper =>
    have := hexact lower upper hv
    have := hswapped.large
    omega

/-- **A search that succeeds is in vain exactly if an integer variable has swapped bounds.** The front is empty iff
there are no candidates, and no domain is empty otherwise. -/
theorem run_in_vain_iff (hrun : run p c host = .ok result) :
    (result.front.isEmpty = true ↔ result.candidates = 0) ∧
      (result.candidates = 0 ↔ ∃ v ∈ p.decisions, v.Swapped) ∧
      ∀ v ∈ p.decisions, v.domainSize? = some 0 ↔ v.Swapped := by
  have hempty : ∀ v ∈ p.decisions, v.Empty ↔ v.Swapped := fun v hv => empty_iff_swapped (run_eq_ok hrun).1 hv
  refine ⟨?_, ?_, hempty⟩
  · obtain ⟨-, as, -, rfl⟩ := run_eq_ok hrun
    rw [Front.isEmpty, List.isEmpty_iff, Front.ofList_members_eq_nil_iff, ← List.length_eq_zero_iff,
      (comparable_evaluateAll ..).1]
  · rw [candidates_eq_zero_iff hrun]
    exact exists_congr fun v => and_congr_right (hempty v)

/-- One integer whose lower bound is by one above its upper bound. -/
def swapped : Problem where
  name := "swapped"
  decisions := [.integer 9007199254740993 9007199254740992]
  objectives := [⟨.minimize, "x1"⟩]
  constraints := []

theorem run_in_vain_swapped : ∃ result, run swapped .standard .standard = .ok result ∧
    (result.front.isEmpty = true ↔ result.candidates = 0) ∧
    (result.candidates = 0 ↔ ∃ v ∈ swapped.decisions, v.Swapped) ∧
    ∀ v ∈ swapped.decisions, v.domainSize? = some 0 ↔ v.Swapped := by
  have hok : (run swapped .standard .standard).isOk = true := by decide +kernel
  obtain ⟨result, hrun⟩ := exists_eq_ok hok
  exact ⟨result, hrun, run_in_vain_iff hrun⟩

/-- The check of a problem lets an empty domain pass. -/
theorem exists_run_in_vain : ∃ p c host result, p.defect? = none ∧ run p c host = .ok result ∧ result.candidates = 0 ∧
    result.front.isEmpty = true ∧ ∃ v ∈ p.decisions, v.domainSize? = some 0 := by
  have hrun : run swapped .standard .standard = .ok ⟨.mixed, 0, .empty⟩ := by rfl
  exact ⟨swapped, .standard, .standard, _, by decide +kernel, hrun, rfl, rfl, _, List.mem_singleton_self _, by decide⟩

end Search
end ParetoSweep
