import ParetoSweep.Proofs.Bind
import ParetoSweep.Proofs.Decision.Empty
import ParetoSweep.Proofs.Search.Grid

/-!
# Grids that cannot be listed

A variable stands in the way of a grid if the walk through it gets stuck and every variable in front of it has a point
(`Blocks`): an empty domain in front ends the listing before the walk is looked at. The listing fails exactly if some
variable stands in the way, and reports the last one that does (`combine_cases`), since the variables behind are listed
first.
-/

namespace ParetoSweep
namespace Grid

/-- The walk through a variable gets stuck, and no domain in front of it is empty. -/
structure Blocks (vs : List Variable) (i : Nat) (v : Variable) : Prop where
  here : vs[i]? = some v
  stuck : (Walk.through v).stuck = true
  reached : ∀ u ∈ vs.take i, ¬ u.Empty

/-- The last variable that stands in the way. -/
structure LastBlock (vs : List Variable) (i : Nat) (v : Variable) : Prop where
  blocks : Blocks vs i v
  last : ∀ j u, Blocks vs j u → j ≤ i

section Blocks

variable {u v : Variable} {vs : List Variable} {i index : Nat}

theorem lastBlock_iff : LastBlock vs i v ↔ Blocks vs i v ∧ ∀ j u, Blocks vs j u → j ≤ i :=
  ⟨fun h => ⟨h.blocks, h.last⟩, fun h => ⟨h.1, h.2⟩⟩

theorem not_blocks_nil : ¬ Blocks [] i v := fun h => nomatch h.here

@[simp] theorem blocks_cons_zero_iff : Blocks (u :: vs) 0 v ↔ v = u ∧ (Walk.through u).stuck = true := by
  constructor
  · rintro ⟨hhere, hstuck, -⟩
    obtain rfl : u = v := Option.some.inj hhere
    exact ⟨rfl, hstuck⟩
  · rintro ⟨rfl, hstuck⟩
    exact ⟨rfl, hstuck, fun w hw => nomatch hw⟩

@[simp] theorem blocks_cons_succ_iff : Blocks (u :: vs) (i + 1) v ↔ ¬ u.Empty ∧ Blocks vs i v := by
  constructor
  · rintro ⟨hhere, hstuck, hreached⟩
    rw [List.take_succ_cons, List.forall_mem_cons] at hreached
    exact ⟨hreached.1, hhere, hstuck, hreached.2⟩
  · rintro ⟨hu, hhere, hstuck, hreached⟩
    refine ⟨hhere, hstuck, ?_⟩
    rw [List.take_succ_cons, List.forall_mem_cons]
    exact ⟨hu, hreached⟩

/-- What is in the way behind the first variable is in the way if there is a point in front of it. -/
theorem LastBlock.cons (hu : ¬ u.Empty) (h : LastBlock vs i v) : LastBlock (u :: vs) (i + 1) v := by
  refine ⟨blocks_cons_succ_iff.mpr ⟨hu, h.blocks⟩, fun j w hj => ?_⟩
  cases j with
  | zero => omega
  | succ j => exact Nat.succ_le_succ (h.last j w (blocks_cons_succ_iff.mp hj).2)

/-- Only one variable is the last one. -/
theorem LastBlock.unique {j : Nat} (h : LastBlock vs i v) (h' : LastBlock vs j u) : i = j ∧ v = u := by
  obtain rfl := Nat.le_antisymm (h'.last i v h.blocks) (h.last j u h'.blocks)
  exact ⟨rfl, Option.some.inj (h.blocks.here.symm.trans h'.blocks.here)⟩

/-- A listing succeeds if nothing stands in the way, and reports the last variable that does otherwise. -/
theorem combine_cases (index : Nat) (vs : List Variable) :
    ((∃ as, combine index vs = .ok as) ∧ ∀ i v, ¬ Blocks vs i v) ∨
      ∃ i v, LastBlock vs i v ∧
        combine index vs = .error (.invalidProblem (.incrementBelowPrecision (index + i) v.increment)) := by
  induction vs generalizing index with
  | nil => exact Or.inl ⟨⟨_, rfl⟩, fun i v => not_blocks_nil⟩
  | cons u vs ih =>
    rw [combine]
    dsimp only
    split
    case isTrue hnil =>
      have hnil := List.isEmpty_iff.mp hnil
      have hstuck := Walk.not_stuck_of_through_eq_nil hnil
      refine Or.inl ⟨⟨_, rfl⟩, fun i v hblocks => ?_⟩
      cases i with
      | zero => simp [hstuck] at hblocks
      | succ i => exact (blocks_cons_succ_iff.mp hblocks).1 (u.points_eq_nil_iff.mp hnil)
    case isFalse hnil =>
      have hu : ¬ u.Empty := fun h => hnil (List.isEmpty_iff.mpr (u.points_eq_nil_iff.mpr h))
      rcases ih (index + 1) with ⟨⟨tails, htails⟩, hnone⟩ | ⟨i, v, hlast, herror⟩
      · rw [htails, ok_bind]
        cases hstuck : (Walk.through u).stuck with
        | true =>
          refine Or.inr ⟨0, u, ⟨by simp [hstuck], fun j w hj => ?_⟩, rfl⟩
          cases j with
          | zero => exact Nat.le_refl 0
          | succ j => exact absurd (blocks_cons_succ_iff.mp hj).2 (hnone j w)
        | false =>
          refine Or.inl ⟨⟨_, rfl⟩, fun i v hblocks => ?_⟩
          cases i with
          | zero => simp [hstuck] at hblocks
          | succ i => exact hnone i v (blocks_cons_succ_iff.mp hblocks).2
      · rw [herror, error_bind, Nat.add_right_comm, Nat.add_assoc]
        exact Or.inr ⟨i + 1, v, hlast.cons hu, rfl⟩

/-- A listing fails exactly if something stands in the way. -/
theorem combine_eq_error_iff {f : Failure} : combine index vs = .error f ↔
    ∃ i v, LastBlock vs i v ∧ f = .invalidProblem (.incrementBelowPrecision (index + i) v.increment) := by
  rcases combine_cases index vs with ⟨⟨as, has⟩, hnone⟩ | ⟨i, v, hlast, herror⟩
  · rw [has]
    exact ⟨fun h => (nomatch h), fun ⟨i, v, hlast, _⟩ => absurd hlast.blocks (hnone i v)⟩
  · rw [herror, Except.error.injEq]
    constructor
    · rintro rfl
      exact ⟨i, v, hlast, rfl⟩
    · rintro ⟨j, u, hlast', rfl⟩
      obtain ⟨rfl, rfl⟩ := hlast.unique hlast'
      rfl

end Blocks

end Grid
end ParetoSweep
