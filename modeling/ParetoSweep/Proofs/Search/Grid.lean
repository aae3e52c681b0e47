import Mathlib.Data.List.Forall2
import ParetoSweep.Proofs.Decision.Walk
import ParetoSweep.Search.Grid

/-!
# The combinations of a grid

A grid that is listed without a failure lists the assignments that give every variable one of its points
(`mem_combine`), the first variable changing slowest (`pairwise_combine`), and so none of them twice.
-/

namespace ParetoSweep

/-! ## The order of assignments -/

/-- The order of assignments in which the first variable counts most. -/
def Assignment.Before (a b : Assignment) : Prop := List.Lex Value.Before a b

theorem Value.not_before_self (x : Value) : ¬ x.Before x := by
  cases x with
  | binary bit => rintro ⟨h, h'⟩; rw [h] at h'; cases h'
  | integer n => exact Int64.lt_irrefl
  | real x => exact fun h => Number.not_lt_of_lt h h

theorem Assignment.not_before_self (a : Assignment) : ¬ a.Before a := by
  induction a with
  | nil => exact fun h => nomatch h
  | cons x a ih =>
    rintro (_ | h | h)
    · exact x.not_before_self h
    · exact ih h

namespace Grid

section Combine

variable {v : Variable} {vs : List Variable} {index : Nat} {as : List Assignment} {a : Assignment}

/-- The ways in which a listing succeeds: there is no point, or there are combinations of the other variables. -/
theorem combine_cons_eq_ok (h : combine index (v :: vs) = .ok as) :
    (Walk.through v).stuck = false ∧
      ((Walk.through v).points = [] ∧ as = [] ∨
        ∃ tails, combine (index + 1) vs = .ok tails ∧
          as = (Walk.through v).points.flatMap fun point => tails.map (point :: ·)) := by
  rw [combine] at h
  dsimp only at h
  split at h
  · rename_i hempty
    have hnil := List.isEmpty_iff.mp hempty
    cases h
    exact ⟨Walk.not_stuck_of_through_eq_nil hnil, Or.inl ⟨hnil, rfl⟩⟩
  · cases htails : combine (index + 1) vs with
    | error fault => rw [htails] at h; cases h
    | ok tails =>
      rw [htails] at h
      cases hstuck : (Walk.through v).stuck with
      | true => rw [hstuck] at h; cases h
      | false =>
        rw [hstuck] at h
        cases h
        exact ⟨rfl, Or.inr ⟨tails, rfl, rfl⟩⟩

/-- A grid lists the assignments of points, in whatever way the points of walks that do not get stuck are described. -/
theorem mem_combine_iff {P : Variable → Value → Prop}
    (hpoint : ∀ v ∈ vs, (Walk.through v).stuck = false → ∀ x, x ∈ (Walk.through v).points ↔ P v x)
    (h : combine index vs = .ok as) : a ∈ as ↔ List.Forall₂ P vs a := by
  induction vs generalizing index as a with
  | nil =>
    cases h
    rw [List.mem_singleton, List.forall₂_nil_left_iff]
  | cons v vs ih =>
    obtain ⟨hstuck, hcases⟩ := combine_cons_eq_ok h
    have hhead : ∀ x, x ∈ (Walk.through v).points ↔ P v x := hpoint v List.mem_cons_self hstuck
    rcases hcases with ⟨hnil, rfl⟩ | ⟨tails, htails, rfl⟩
    · constructor
      · exact fun h => nomatch h
      · rintro (_ | ⟨hx, -⟩)
        rw [← hhead, hnil] at hx
        cases hx
    · have htail : ∀ b, b ∈ tails ↔ List.Forall₂ P vs b :=
        fun b => ih (fun w hw => hpoint w (List.mem_cons_of_mem v hw)) htails
      simp only [List.mem_flatMap, List.mem_map]
      constructor
      · rintro ⟨x, hx, b, hb, rfl⟩
        exact .cons ((hhead x).mp hx) ((htail b).mp hb)
      · rintro (_ | ⟨hx, hb⟩)
        exact ⟨_, (hhead _).mpr hx, _, (htail _).mpr hb, rfl⟩

theorem mem_combine (hpos : ∀ v ∈ vs, 0 < v.increment) (h : combine index vs = .ok as) :
    a ∈ as ↔ List.Forall₂ Variable.Point vs a :=
  mem_combine_iff (fun v hv hstuck _ => Walk.mem_through (hpos v hv) hstuck) h

/-- A grid lists the first variable slowest. -/
theorem pairwise_combine (h : combine index vs = .ok as) : as.Pairwise Assignment.Before := by
  induction vs generalizing index as with
  | nil =>
    cases h
    exact List.pairwise_singleton ..
  | cons v vs ih =>
    obtain ⟨-, ⟨-, rfl⟩ | ⟨tails, htails, rfl⟩⟩ := combine_cons_eq_ok h
    · exact .nil
    · rw [List.pairwise_flatMap]
      constructor
      · intro x _
        rw [List.pairwise_map]
        exact (ih htails).imp fun hab => .cons hab
      · refine (Walk.pairwise_through v).imp fun hxy a ha b hb => ?_
        obtain ⟨a, -, rfl⟩ := List.mem_map.mp ha
        obtain ⟨b, -, rfl⟩ := List.mem_map.mp hb
        exact .rel hxy

theorem nodup_combine (h : combine index vs = .ok as) : as.Nodup := by
  refine (pairwise_combine h).imp ?_
  rintro a b hab rfl
  exact a.not_before_self hab

end Combine

end Grid
end ParetoSweep
