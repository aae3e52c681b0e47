import Mathlib.Data.List.Forall2
import Mathlib.Data.List.Zip
import ParetoSweep.Front.Dominance
import ParetoSweep.Proofs.Number.Order

/-!
# Dominance as a preorder

Candidates with the same number of objectives and without NaN (`Comparable`) are preordered by their violations and,
between equal violations, by all objectives at once (`Candidate.Under`). To exclude is to be under (`excludes_iff`), to
dominate is to be strictly under (`dominates_iff`), and a tie is a pair under one another (`ties_iff`), so what the
fronts need of dominance is that the preorder is reflexive and transitive.
-/

namespace ParetoSweep

open Number

/-! ## Lists of objective values -/

/-- No value of the first list is above its counterpart in the second one. -/
def Below (xs ys : List Float) : Prop := List.Forall₂ (fun x y => rank x ≤ rank y) xs ys

namespace Below

theorem refl (xs : List Float) : Below xs xs := List.forall₂_same.mpr fun _ _ => Int.le_refl _

theorem trans {xs ys zs : List Float} (h : Below xs ys) (h' : Below ys zs) : Below xs zs := by
  induction h generalizing zs with
  | nil => cases h'; exact .nil
  | cons hxy _ ih =>
    cases h' with
    | cons hyz hrest => exact .cons (Int.le_trans hxy hyz) (ih hrest)

end Below

section Objectives

variable {xs ys : List Float}

theorem not_any_gt_iff (hlen : xs.length = ys.length) (hx : ∀ x ∈ xs, x.isNaN = false)
    (hy : ∀ y ∈ ys, y.isNaN = false) :
    (xs.zip ys).any (fun (x, y) => y < x) = false ↔ Below xs ys := by
  induction xs generalizing ys with
  | nil =>
    cases ys with
    | nil => exact ⟨fun _ => .nil, fun _ => rfl⟩
    | cons y ys => cases hlen
  | cons x xs ih =>
    cases ys with
    | nil => cases hlen
    | cons y ys =>
      have hhead := lt_iff_rank (hy y List.mem_cons_self) (hx x List.mem_cons_self)
      have htail := ih (Nat.succ.inj hlen) (fun z hz => hx z (List.mem_cons_of_mem x hz))
        (fun z hz => hy z (List.mem_cons_of_mem y hz))
      rw [List.zip_cons_cons, List.any_cons, Bool.or_eq_false_iff, htail, decide_eq_false_iff_not, hhead, Int.not_lt]
      exact ⟨fun h => .cons h.1 h.2, fun h => by cases h with | cons h₁ h₂ => exact ⟨h₁, h₂⟩⟩

theorem not_any_lt_iff (hlen : xs.length = ys.length) (hx : ∀ x ∈ xs, x.isNaN = false)
    (hy : ∀ y ∈ ys, y.isNaN = false) :
    (xs.zip ys).any (fun (x, y) => x < y) = false ↔ Below ys xs := by
  rw [← not_any_gt_iff hlen.symm hy hx, ← List.zip_swap, List.any_map]
  rfl

/-- Equal lists are below one another. -/
theorem beq_iff_below (hx : ∀ x ∈ xs, x.isNaN = false) (hy : ∀ y ∈ ys, y.isNaN = false) :
    (xs == ys) = true ↔ Below xs ys ∧ Below ys xs := by
  induction xs generalizing ys with
  | nil =>
    cases ys with
    | nil => exact ⟨fun _ => ⟨.nil, .nil⟩, fun _ => rfl⟩
    | cons y ys => exact ⟨fun h => (by cases h), fun h => (by cases h.1)⟩
  | cons x xs ih =>
    cases ys with
    | nil => exact ⟨fun h => (by cases h), fun h => (by cases h.1)⟩
    | cons y ys =>
      have hhead := beq_iff_rank (hx x List.mem_cons_self) (hy y List.mem_cons_self)
      have htail := ih (fun z hz => hx z (List.mem_cons_of_mem x hz)) (fun z hz => hy z (List.mem_cons_of_mem y hz))
      rw [List.cons_beq_cons, Bool.and_eq_true, hhead, htail]
      constructor
      · rintro ⟨heq, hle, hge⟩
        exact ⟨.cons (Int.le_of_eq heq) hle, .cons (Int.le_of_eq heq.symm) hge⟩
      · rintro ⟨hle, hge⟩
        cases hle with
        | cons h₁ h₂ =>
          cases hge with
          | cons h₃ h₄ => exact ⟨Int.le_antisymm h₁ h₃, h₂, h₄⟩

/-- To dominate is to be below and not above. -/
theorem ofObjectives_eq_left_iff (hlen : xs.length = ys.length) (hx : ∀ x ∈ xs, x.isNaN = false)
    (hy : ∀ y ∈ ys, y.isNaN = false) : Dominance.ofObjectives xs ys = .left ↔ Below xs ys ∧ ¬ Below ys xs := by
  rw [← not_any_gt_iff hlen hx hy, ← not_any_lt_iff hlen hx hy, Dominance.ofObjectives]
  cases (xs.zip ys).any fun (x, y) => x < y <;> cases (xs.zip ys).any fun (x, y) => y < x <;> simp

/-- Who dominates does not depend on who comes first. -/
theorem ofObjectives_eq_right_iff (xs ys : List Float) :
    Dominance.ofObjectives xs ys = .right ↔ Dominance.ofObjectives ys xs = .left := by
  unfold Dominance.ofObjectives
  rw [← List.zip_swap xs ys, List.any_map, List.any_map]
  simp only [Function.comp_def, Prod.fst_swap, Prod.snd_swap]
  cases (xs.zip ys).any fun (x, y) => x < y <;> cases (xs.zip ys).any fun (x, y) => y < x <;> simp

end Objectives

/-! ## Candidates -/

namespace Candidate

/-- A candidate with `n` objectives, none of them NaN, and a violation that is not NaN either. -/
structure Comparable (n : Nat) (c : Candidate) : Prop where
  length : c.objectives.length = n
  objectives : ∀ x ∈ c.objectives, x.isNaN = false
  measure : c.measure.isNaN = false

/-- The first candidate violates less than the second one, or equally much and is not worse in any objective. -/
def Under (a b : Candidate) : Prop :=
  rank a.measure < rank b.measure ∨ rank a.measure = rank b.measure ∧ Below a.objectives b.objectives

namespace Under

theorem refl (a : Candidate) : a.Under a := Or.inr ⟨rfl, Below.refl _⟩

theorem trans {a b c : Candidate} (h : a.Under b) (h' : b.Under c) : a.Under c := by
  rcases h with h | ⟨h, hab⟩
  · rcases h' with h' | ⟨h', -⟩
    · exact Or.inl (Int.lt_trans h h')
    · exact Or.inl (h' ▸ h)
  · rcases h' with h' | ⟨h', hbc⟩
    · exact Or.inl (h ▸ h')
    · exact Or.inr ⟨h.trans h', hab.trans hbc⟩

end Under

/-- Who dominates does not depend on who comes first. -/
theorem ofCandidates_eq_right_iff (a b : Candidate) :
    Dominance.ofCandidates a b = .right ↔ Dominance.ofCandidates b a = .left := by
  unfold Dominance.ofCandidates
  by_cases hab : a.measure < b.measure
  · rw [if_pos hab, if_neg (not_lt_of_lt hab), if_pos hab]
    simp
  · rw [if_neg hab]
    by_cases hba : b.measure < a.measure
    · rw [if_pos hba, if_pos hba]
      simp
    · rw [if_neg hba, if_neg hba, if_neg hab, ofObjectives_eq_right_iff]

section Comparable

variable {n : Nat} {a b : Candidate}

/-- The three cases of a comparison by violations. -/
theorem ofCandidates_cases (ha : a.Comparable n) (hb : b.Comparable n) :
    (rank a.measure < rank b.measure ∧ Dominance.ofCandidates a b = .left) ∨
      (rank b.measure < rank a.measure ∧ Dominance.ofCandidates a b = .right) ∨
      (rank a.measure = rank b.measure ∧
        Dominance.ofCandidates a b = Dominance.ofObjectives a.objectives b.objectives) := by
  have hab := lt_iff_rank ha.measure hb.measure
  have hba := lt_iff_rank hb.measure ha.measure
  unfold Dominance.ofCandidates
  rcases Int.lt_trichotomy (rank a.measure) (rank b.measure) with hlt | heq | hgt
  · exact Or.inl ⟨hlt, if_pos (hab.mpr hlt)⟩
  · refine Or.inr (Or.inr ⟨heq, ?_⟩)
    rw [if_neg (fun h => by have := hab.mp h; omega), if_neg (fun h => by have := hba.mp h; omega)]
  · refine Or.inr (Or.inl ⟨hgt, ?_⟩)
    rw [if_neg (fun h => by have := hab.mp h; omega), if_pos (hba.mpr hgt)]

theorem dominates_iff (ha : a.Comparable n) (hb : b.Comparable n) :
    Dominance.ofCandidates a b = .left ↔ a.Under b ∧ ¬ b.Under a := by
  have hobj := ofObjectives_eq_left_iff (ha.length.trans hb.length.symm) ha.objectives hb.objectives
  unfold Under
  rcases ofCandidates_cases ha hb with ⟨hlt, h⟩ | ⟨hgt, h⟩ | ⟨heq, h⟩
  · exact ⟨fun _ => ⟨Or.inl hlt, by omega⟩, fun _ => h⟩
  · exact ⟨fun h' => (by rw [h] at h'; cases h'), fun h' => by omega⟩
  · rw [h, hobj]
    simp [heq]

theorem ties_iff (ha : a.Comparable n) (hb : b.Comparable n) : a.ties b = true ↔ a.Under b ∧ b.Under a := by
  rw [ties, Bool.and_eq_true, beq_iff_rank ha.measure hb.measure, beq_iff_below ha.objectives hb.objectives]
  constructor
  · rintro ⟨heq, hle, hge⟩
    exact ⟨Or.inr ⟨heq, hle⟩, Or.inr ⟨heq.symm, hge⟩⟩
  · rintro ⟨h, h'⟩
    rcases h with h | ⟨heq, hle⟩
    · rcases h' with h' | ⟨heq, -⟩ <;> omega
    · rcases h' with h' | ⟨-, hge⟩
      · omega
      · exact ⟨heq, hle, hge⟩

/-- A candidate leaves no place for those that it is under. -/
theorem excludes_iff (ha : a.Comparable n) (hb : b.Comparable n) : a.excludes b = true ↔ a.Under b := by
  have hleft := dominates_iff ha hb
  have hright := (ofCandidates_eq_right_iff a b).trans (dominates_iff hb ha)
  have hties := ties_iff ha hb
  unfold excludes
  cases h : Dominance.ofCandidates a b with
  | left => exact ⟨fun _ => (hleft.mp h).1, fun _ => rfl⟩
  | right => exact ⟨fun h' => (by cases h'), fun hab => absurd hab (hright.mp h).2⟩
  | neither =>
    rw [h] at hleft hright
    simp only [hties]
    constructor
    · exact fun h => h.1
    · intro hab
      refine ⟨hab, ?_⟩
      by_cases hba : b.Under a
      · exact hba
      · exact absurd (hleft.mpr ⟨hab, hba⟩) (by simp)

/-- To be excluded is to be dominated or tied. -/
theorem excludes_iff_dominates_or_ties (ha : a.Comparable n) (hb : b.Comparable n) :
    a.excludes b = true ↔ Dominance.ofCandidates a b = .left ∨ a.ties b = true := by
  rw [excludes_iff ha hb, dominates_iff ha hb, ties_iff ha hb]
  by_cases hba : b.Under a <;> simp [hba]

end Comparable

end Candidate
end ParetoSweep
