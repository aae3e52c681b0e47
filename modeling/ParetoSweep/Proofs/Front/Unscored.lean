import ParetoSweep.Proofs.Front.Optimal
import ParetoSweep.Proofs.Number.Arithmetic

/-!
# Candidates without scores

A candidate without scores counts as infinitely bad in every respect, so every other one is under it
(`under_unscored`). But a candidate with scores can be infinitely bad as well (`Worst`), and then the two tie. So a
front keeps a candidate without scores exactly if it is the first one and all others are no better
(`mem_optimal_iff`); it is the only member then (`optimal_eq_singleton`).
-/

namespace ParetoSweep

open Number

/-! ## Infinitely bad candidates -/

namespace Number

/-- Nothing is above infinity. -/
theorem rank_le_rank_infinity (x : Float) : rank x ≤ rank infinity := by
  have hp := packable_unpack x
  rw [show rank infinity = topRank by decide +kernel, rank_eq_position]
  cases hu : x.toModel.unpack with
  | notANumber => exact (by decide : (0 : Int) ≤ topRank)
  | zero s => exact (by decide : (0 : Int) ≤ topRank)
  | infinity s => cases s <;> decide
  | finite s m e hm =>
    rw [hu] at hp
    exact Int.le_of_lt (position_finite_bounds hp).2

end Number

namespace Candidate

/-- Whether all objectives have values. -/
def hasScores (c : Candidate) : Bool :=
  match c.outcome with
  | .scored _ => true
  | .unscored .. => false

/-- A candidate that is infinitely bad in every respect. -/
structure Worst (c : Candidate) : Prop where
  measure : (c.measure == infinity) = true
  objectives : ∀ x ∈ c.objectives, (x == infinity) = true

section Worst

variable {n : Nat} {c d : Candidate}

theorem isNaN_infinity : infinity.isNaN = false := by decide

/-- Whatever is not NaN is infinite if it is not below infinity. -/
theorem beq_infinity_iff {x : Float} (hx : x.isNaN = false) : (x == infinity) = true ↔ rank infinity ≤ rank x := by
  have hle := rank_le_rank_infinity x
  rw [beq_iff_rank hx isNaN_infinity]
  omega

/-- A candidate without scores has nothing but the numbers of its objectives and constraints. -/
theorem exists_unscored_of_hasScores (h : c.hasScores = false) : ∃ objectives constraints,
    c.outcome = .unscored objectives constraints := by
  unfold hasScores at h
  cases houtcome : c.outcome with
  | scored scores => rw [houtcome] at h; cases h
  | unscored objectives constraints => exact ⟨objectives, constraints, rfl⟩

theorem measure_of_hasScores (h : c.hasScores = false) : c.measure = infinity := by
  obtain ⟨_, _, houtcome⟩ := exists_unscored_of_hasScores h
  rw [measure, houtcome]

theorem objectives_of_hasScores (h : c.hasScores = false) : ∀ x ∈ c.objectives, x = infinity := by
  obtain ⟨_, _, houtcome⟩ := exists_unscored_of_hasScores h
  rw [objectives, houtcome]
  exact fun x hx => List.eq_of_mem_replicate hx

/-- Every candidate is under one without scores. -/
theorem under_unscored (hc : c.Comparable n) (hd : d.Comparable n) (h : c.hasScores = false) : d.Under c := by
  have hmeasure := rank_le_rank_infinity d.measure
  have hobjectives : Below d.objectives c.objectives := by
    refine List.forall₂_iff_get.mpr ⟨hd.length.trans hc.length.symm, fun i _ hi => ?_⟩
    rw [objectives_of_hasScores h _ (List.get_mem _ _)]
    exact rank_le_rank_infinity _
  rw [← measure_of_hasScores h] at hmeasure
  rcases Int.lt_or_eq_of_le hmeasure with hlt | heq
  · exact Or.inl hlt
  · exact Or.inr ⟨heq, hobjectives⟩

/-- A candidate without scores is under those that are as bad. -/
theorem unscored_under_iff (hc : c.Comparable n) (hd : d.Comparable n) (h : c.hasScores = false) :
    c.Under d ↔ d.Worst := by
  have hmeasure := beq_infinity_iff hd.measure
  have hmax := rank_le_rank_infinity d.measure
  unfold Under
  rw [measure_of_hasScores h]
  constructor
  · rintro (hlt | ⟨heq, hbelow⟩)
    · omega
    · refine ⟨hmeasure.mpr (Int.le_of_eq heq), fun x hx => ?_⟩
      obtain ⟨i, hi, rfl⟩ := List.getElem_of_mem hx
      have hi' : i < c.objectives.length := by rw [hc.length, ← hd.length]; exact hi
      have hle := (List.forall₂_iff_get.mp hbelow).2 i hi' hi
      rw [objectives_of_hasScores h _ (List.get_mem _ _)] at hle
      exact (beq_infinity_iff (hd.objectives _ hx)).mpr hle
  · rintro ⟨hworst, hobjectives⟩
    have hle := hmeasure.mp hworst
    refine Or.inr ⟨by omega, List.forall₂_iff_get.mpr ⟨hc.length.trans hd.length.symm, fun i _ hi => ?_⟩⟩
    rw [objectives_of_hasScores h _ (List.get_mem _ _)]
    exact (beq_infinity_iff (hd.objectives _ (List.get_mem _ _))).mp (hobjectives _ (List.get_mem _ _))

/-- A candidate ties one without scores iff it is as bad. -/
theorem unscored_ties_iff (hc : c.Comparable n) (hd : d.Comparable n) (h : c.hasScores = false) :
    c.ties d = true ↔ d.Worst := by
  rw [ties_iff hc hd, unscored_under_iff hc hd h, and_iff_left (under_unscored hc hd h)]

end Worst

end Candidate

/-! ## Fronts -/

section Optimal

variable {n : Nat} {c : Candidate} {cs : List Candidate}

/-- If all candidates tie the first one, it is the only one that is optimal. -/
theorem optimal_eq_singleton (hcs : ∀ d ∈ c :: cs, d.Comparable n) (h : ∀ d ∈ c :: cs, c.ties d = true) :
    optimal (c :: cs) = [c] := by
  have hc := hcs c List.mem_cons_self
  induction cs using List.reverseRecOn with
  | nil => simp [optimal, List.filter, not_dominates_self hc]
  | append_singleton cs d ih =>
    rw [← List.cons_append] at hcs h ⊢
    have hd : d.Comparable n := hcs d (by simp)
    have hties := h d (by simp)
    have hunder := (Candidate.ties_iff hc hd).mp hties
    have hkept : Dominance.ofCandidates d c ≠ .left := fun hleft =>
      ((Candidate.dominates_iff hd hc).mp hleft).2 hunder.1
    have hexcludes : ¬ ∀ e ∈ c :: cs, e.excludes d = false := by
      intro hnone
      have hnot := hnone c List.mem_cons_self
      rw [(Candidate.excludes_iff hc hd).mpr hunder.1] at hnot
      cases hnot
    rw [optimal_concat hd fun e he => hcs e (List.mem_append_left _ he), if_neg hexcludes, List.append_nil,
      ih (fun e he => hcs e (List.mem_append_left _ he)) fun e he => h e (List.mem_append_left _ he)]
    simp [hkept]

/-- A candidate without scores is optimal iff it is the first one and no other one is better. -/
theorem mem_optimal_iff (hcs : ∀ d ∈ cs, d.Comparable n) (h : c.hasScores = false) :
    c ∈ optimal cs ↔ cs.head? = some c ∧ ∀ d ∈ cs, d.Worst := by
  constructor
  · intro hmem
    have hc := hcs c (mem_of_mem_optimal hmem)
    have hunder : ∀ d ∈ cs, c.Under d := by
      intro d hd
      by_contra hnot
      refine not_dominates_of_mem_optimal hmem hd ((Candidate.dominates_iff (hcs d hd) hc).mpr ⟨?_, hnot⟩)
      exact Candidate.under_unscored hc (hcs d hd) h
    refine ⟨?_, fun d hd => (Candidate.unscored_under_iff hc (hcs d hd) h).mp (hunder d hd)⟩
    obtain ⟨i, hi, hearlier⟩ := getElem?_of_mem_optimal hmem
    cases i with
    | zero => rwa [List.head?_eq_getElem?]
    | succ i =>
      -- the first candidate ties this one and would have kept it out
      cases cs with
      | nil => cases hi
      | cons d cs =>
        have hd := hcs d List.mem_cons_self
        have hties : d.ties c = true :=
          (Candidate.ties_iff hd hc).mpr ⟨Candidate.under_unscored hc hd h, hunder d List.mem_cons_self⟩
        rw [hearlier 0 d (Nat.succ_pos i) rfl] at hties
        cases hties
  · rintro ⟨hhead, hworst⟩
    cases cs with
    | nil => cases hhead
    | cons d cs =>
      obtain rfl := Option.some.inj hhead
      have hties : ∀ e ∈ d :: cs, d.ties e = true := fun e he =>
        (Candidate.unscored_ties_iff (hcs d List.mem_cons_self) (hcs e he) h).mpr (hworst e he)
      simp [optimal_eq_singleton hcs hties]

end Optimal
end ParetoSweep
