import ParetoSweep.Proofs.Decision.Walk
import ParetoSweep.Proofs.Number.Integers
import ParetoSweep.Proofs.Problem.Defect

/-!
# Empty domains

A domain is counted as empty exactly if the walk through it meets no point (`points_eq_nil_iff`). Bounds are checked as
doubles but counted as they are, so integer bounds that are the wrong way round pass the check if they are the same
double. No other sound variable has an empty domain (`sound_and_empty_iff`), and such bounds are beyond `2 ^ 53`
(`Swapped.large`).
-/

namespace ParetoSweep

open Number

namespace Variable

/-- There is no point between the bounds. -/
def Empty (v : Variable) : Prop := v.domainSize? = some 0

instance (v : Variable) : Decidable v.Empty := inferInstanceAs (Decidable (v.domainSize? = some 0))

/-- Integer bounds that are the wrong way round and the same double. -/
def Swapped : Variable → Prop
  | integer lower upper => upper < lower ∧ (Float.ofInt lower.toInt == Float.ofInt upper.toInt) = true
  | _ => False

variable {v : Variable} {lower upper : Int64} {x y increment : Float}

theorem empty_integer_iff : (integer lower upper).Empty ↔ upper < lower := by
  rw [Int64.lt_iff_toInt_lt]
  simp only [Empty, domainSize?]
  split
  case isTrue hsize => exact ⟨fun _ => by omega, fun _ => rfl⟩
  case isFalse hsize =>
    split
    · simp only [Option.some.injEq]
      omega
    · exact ⟨fun h => (nomatch h), fun h => by omega⟩

theorem empty_real_iff : (real x y increment).Empty ↔ ¬ (x ≤ y ∧ 0 < increment) := by
  simp only [Empty, domainSize?]
  split
  · split <;> simp [*]
  · simp [*]

/-- A domain is empty iff the walk through it meets no point. -/
theorem points_eq_nil_iff (v : Variable) : (Walk.through v).points = [] ↔ v.Empty := by
  cases v with
  | binary => exact ⟨fun h => (nomatch h), fun h => nomatch h⟩
  | integer lower upper =>
    rw [empty_integer_iff, Int64.lt_iff_toInt_lt]
    simp only [Walk.through, Walk.integers, List.map_eq_nil_iff, List.range_eq_nil]
    omega
  | real x y increment =>
    rw [empty_real_iff, Walk.through, Walk.reals]
    by_cases hpos : 0 < increment
    · rw [if_pos hpos]
      by_cases hle : x ≤ y
      · rw [Walk.climb_of_le hle]
        split <;> simp [Walk.cons, hle, hpos]
      · simp [Walk.climb_of_not_le hle, hle]
    · simp [hpos]

/-- The check of bounds lets an empty domain pass exactly if its bounds are integers that are the wrong way round and
the same double. -/
theorem sound_and_empty_iff (v : Variable) : v.Sound ∧ v.Empty ↔ v.Swapped := by
  cases v with
  | binary => exact ⟨fun h => (nomatch h.2), fun h => h.elim⟩
  | real x y increment =>
    rw [empty_real_iff]
    exact ⟨fun ⟨hs, he⟩ => he ⟨hs.ordered, hs.increment_pos⟩, fun h => h.elim⟩
  | integer lower upper =>
    have hlower := isNaN_ofInt lower.toInt
    have hupper := isNaN_ofInt upper.toInt
    rw [empty_integer_iff, Swapped, beq_iff_rank hlower hupper]
    constructor
    · rintro ⟨hs, hlt⟩
      have hle : Float.ofInt lower.toInt ≤ Float.ofInt upper.toInt := hs.ordered
      have hge := ofInt_le_ofInt (Int.le_of_lt (Int64.lt_iff_toInt_lt.mp hlt))
      rw [le_iff_rank hlower hupper] at hle
      rw [le_iff_rank hupper hlower] at hge
      exact ⟨hlt, Int.le_antisymm hle hge⟩
    · rintro ⟨hlt, heq⟩
      refine ⟨⟨?_, isFinite_ofInt lower, isFinite_ofInt upper, ?_, rfl⟩, hlt⟩
      · exact (le_iff_rank hlower hupper).mpr (Int.le_of_eq heq)
      · show (0 : Float) < 1.0
        decide

/-- Swapped bounds are not both among the integers that doubles hold. -/
theorem Swapped.large (h : (integer lower upper).Swapped) :
    9007199254740992 < lower.toInt.natAbs ∨ 9007199254740992 < upper.toInt.natAbs := by
  by_contra hsmall
  obtain ⟨hlt, hbeq⟩ := h
  rw [Int64.lt_iff_toInt_lt] at hlt
  rw [beq_iff_rank (isNaN_ofInt _) (isNaN_ofInt _)] at hbeq
  have hunits := units_eq_of_rank_eq (isFinite_ofInt lower) (isFinite_ofInt upper) hbeq
  rw [units_ofInt (by omega), units_ofInt (by omega)] at hunits
  have hne : (2 : Int) ^ 1074 ≠ 0 := by positivity
  have := Int.eq_of_mul_eq_mul_right hne hunits
  omega

end Variable
end ParetoSweep
