import ParetoSweep.Proofs.Number.Exact

/-!
# When results are zero

Rounding makes no number zero that is not zero already: whole numbers of least doubles are doubles as long as they are
small (`rankOfUnits_eq_zero_iff`). So a difference is zero only if its sides are equal (`rank_sub_ne_zero`), and a total
of numbers that are not negative is zero only if all of them are (`rank_total_eq_zero_iff`). Both zeros have rank zero.
-/

namespace ParetoSweep
namespace Number

open Float.Model (UnpackedFloat)
open Float.Model.UnpackedFloat

/-! ## Differences -/

theorem rankOfUnits_pos {a : Int} (h : 0 < a) : 0 < rankOfUnits a := by
  have hone : rankOfUnits 1 = 1 := by decide
  have hmono := rankOfUnits_mono (show 1 ≤ a by omega)
  omega

/-- What is not zero is not rounded to zero. -/
theorem rankOfUnits_eq_zero_iff {a : Int} : rankOfUnits a = 0 ↔ a = 0 := by
  constructor
  · intro h
    rcases Int.lt_trichotomy a 0 with hlt | heq | hgt
    · have hneg := rankOfUnits_pos (show 0 < -a by omega)
      rw [rankOfUnits_neg] at hneg
      omega
    · exact heq
    · have hpos := rankOfUnits_pos hgt
      omega
  · rintro rfl
    rfl

section Zero

variable {x y : Float}

/-- An infinite result. -/
theorem position_pack_infinity (s : Sign) : position (Float.Model.pack (.infinity s)).unpack ≠ 0 := by
  rw [unpack_pack (fun _ _ _ _ h => by cases h)]
  cases s <;> decide

/-- The difference of numbers of different ranks is not zero. -/
theorem rank_sub_ne_zero (hx : x.isNaN = false) (hy : y.isNaN = false) (h : rank x ≠ rank y) : rank (x - y) ≠ 0 := by
  by_cases hfinite : x.isFinite = true ∧ y.isFinite = true
  · obtain ⟨hfx, hfy⟩ := hfinite
    rw [rank_sub hfx hfy]
    intro hzero
    have hunits : units x = units y := by
      have := rankOfUnits_eq_zero_iff.mp hzero
      omega
    rw [← rankOfUnits_units hfx, ← rankOfUnits_units hfy, hunits] at h
    exact h rfl
  · -- an infinite side makes the difference infinite
    rw [rank_eq_position, rank_eq_position] at h
    rw [rank_eq_position]
    change x.toModel.unpack.isNaN = false at hx
    change y.toModel.unpack.isNaN = false at hy
    change ¬ (x.toModel.unpack.isFinite = true ∧ y.toModel.unpack.isFinite = true) at hfinite
    show position (Float.Model.pack (UnpackedFloat.sub .binary64 x.toModel.unpack y.toModel.unpack)).unpack ≠ 0
    generalize x.toModel.unpack = u at *
    generalize y.toModel.unpack = v at *
    cases u with
    | notANumber => cases hx
    | infinity s =>
      cases v with
      | notANumber => cases hy
      | infinity t => cases s <;> cases t <;> first | exact absurd rfl h | exact position_pack_infinity _
      | zero t => exact position_pack_infinity s
      | finite t n f hn => exact position_pack_infinity s
    | zero s =>
      cases v with
      | notANumber => cases hy
      | infinity t => exact position_pack_infinity (-t)
      | zero t => exact absurd ⟨rfl, rfl⟩ hfinite
      | finite t n f hn => exact absurd ⟨rfl, rfl⟩ hfinite
    | finite s m e hm =>
      cases v with
      | notANumber => cases hy
      | infinity t => exact position_pack_infinity (-t)
      | zero t => exact absurd ⟨rfl, rfl⟩ hfinite
      | finite t n f hn => exact absurd ⟨rfl, rfl⟩ hfinite

/-! ## Totals -/

theorem exists_zero_of_rank_eq_zero (hx : x.isNaN = false) (h : rank x = 0) : ∃ s, x.toModel.unpack = .zero s := by
  have hp := packable_unpack x
  rw [rank_eq_position] at h
  change x.toModel.unpack.isNaN = false at hx
  generalize x.toModel.unpack = u at *
  cases u with
  | notANumber => cases hx
  | infinity s => cases s <;> cases h
  | zero s => exact ⟨s, rfl⟩
  | finite s m e hm =>
    cases s with
    | negative => exact absurd h (Int.ne_of_lt (position_negative hp))
    | positive => exact absurd h.symm (Int.ne_of_lt (position_positive hp))

/-- Adding to zero. -/
theorem rank_add_of_rank_eq_zero (hx : x.isNaN = false) (h : rank x = 0) (y : Float) : rank (x + y) = rank y := by
  obtain ⟨s, hs⟩ := exists_zero_of_rank_eq_zero hx h
  have hp := packable_unpack y
  rw [rank_add_eq, hs, rank_eq_position]
  generalize y.toModel.unpack = v at *
  cases v with
  | notANumber => cases s <;> exact congrArg position (unpack_pack hp)
  | infinity t => cases s <;> exact congrArg position (unpack_pack hp)
  | zero t => cases s <;> cases t <;> rfl
  | finite t n f hn => exact congrArg position (unpack_pack hp)

theorem rank_add_eq_zero_iff (hx : x.isNaN = false) (hy : y.isNaN = false) (px : 0 ≤ rank x) (py : 0 ≤ rank y) :
    rank (x + y) = 0 ↔ rank x = 0 ∧ rank y = 0 := by
  have hle := rank_le_add py (isNaN_add hx hy px py)
  constructor
  · intro h
    have hzero : rank x = 0 := by omega
    rw [rank_add_of_rank_eq_zero hx hzero] at h
    exact ⟨hzero, h⟩
  · rintro ⟨hzero, h⟩
    rw [rank_add_of_rank_eq_zero hx hzero, h]

/-- Numbers that are not negative add up to zero only if all of them are zero. -/
theorem rank_foldl_add (xs : List Float) (h : ∀ x ∈ xs, x.isNaN = false ∧ 0 ≤ rank x) (hy : y.isNaN = false)
    (py : 0 ≤ rank y) : 0 ≤ rank (xs.foldl (· + ·) y) ∧
      (rank (xs.foldl (· + ·) y) = 0 ↔ rank y = 0 ∧ ∀ x ∈ xs, rank x = 0) := by
  induction xs generalizing y with
  | nil => simp [py]
  | cons x xs ih =>
    obtain ⟨hx, px⟩ := h x List.mem_cons_self
    have hsum : (y + x).isNaN = false := isNaN_add hy hx py px
    have hrank : rank y ≤ rank (y + x) := rank_le_add px hsum
    obtain ⟨hnonneg, hzero⟩ := ih (fun z hz => h z (List.mem_cons_of_mem x hz)) hsum (Int.le_trans py hrank)
    refine ⟨hnonneg, ?_⟩
    rw [List.foldl_cons, hzero, rank_add_eq_zero_iff hy hx py px, List.forall_mem_cons, and_assoc]

variable {xs : List Float}

theorem rank_total_nonneg (h : ∀ x ∈ xs, x.isNaN = false ∧ 0 ≤ rank x) : 0 ≤ rank (total xs) :=
  (rank_foldl_add xs h (by decide) (by decide)).1

theorem rank_total_eq_zero_iff (h : ∀ x ∈ xs, x.isNaN = false ∧ 0 ≤ rank x) :
    rank (total xs) = 0 ↔ ∀ x ∈ xs, rank x = 0 := by
  have hstart : rank (-0.0) = 0 := by decide
  rw [total, (rank_foldl_add xs h (by decide) (by decide)).2, and_iff_right hstart]

/-- Absolute values of other numbers than zero are not zero. -/
theorem rank_abs_eq_zero_iff (x : Float) : rank x.abs = 0 ↔ rank x = 0 := by
  rw [rank_eq_position, rank_eq_position, unpack_abs]
  cases x.toModel.unpack with
  | finite s m e hm => cases s <;> simp [UnpackedFloat.abs, position, Sign.apply]
  | infinity s => cases s <;> simp [UnpackedFloat.abs, position, Sign.apply, topRank]
  | _ => rfl

end Zero

end Number
end ParetoSweep
