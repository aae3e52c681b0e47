import ParetoSweep.Proofs.Decision.Count
import ParetoSweep.Proofs.Number.Dyadic

/-!
# Domains on which nothing is rounded

If the bounds and the increment of a real variable are multiples of one power of two and have few enough binary digits
(`Variable.Multiples`), every number that the loop through the domain comes to is exact (`units_level`). So the loop
comes to as many numbers as the increment goes into the width (`reaches_iff`) and never stalls, the count is the same
number although its quotient is rounded (`size_eq`), and the index formula gives the same numbers (`valueAt?_level`).
-/

namespace ParetoSweep

open Number

/-- The bounds and the increment are `a`, `b` and `c` times `2 ^ p` least doubles, that is `2 ^ (p - 1074)`. These whole
numbers, the width of the domain and the number one increment beyond the upper bound have at most 53 binary digits. -/
structure Variable.Multiples (lower upper increment : Float) (a b c : Int) (p : Nat) : Prop where
  ordered : lower ≤ upper
  increment_pos : 0 < increment
  finite_lower : lower.isFinite = true
  finite_upper : upper.isFinite = true
  finite_increment : increment.isFinite = true
  units_lower : units lower = a * 2 ^ p
  units_upper : units upper = b * 2 ^ p
  units_increment : units increment = c * 2 ^ p
  place_le : p ≤ 2044
  lower_lt : a.natAbs < 9007199254740992
  upper_lt : b.natAbs < 9007199254740992
  increment_lt : c.natAbs < 9007199254740992
  width_lt : (b - a).natAbs < 9007199254740992
  beyond_lt : (b + c).natAbs < 9007199254740992

/-- The numbers of a real variable are multiples of one power of two, with few enough binary digits. -/
def Variable.Dyadic : Variable → Prop
  | .real lower upper increment => ∃ a b c p, Multiples lower upper increment a b c p
  | _ => True

namespace Variable.Multiples

variable {lower upper increment : Float} {a b c : Int} {p k size : Nat}

theorem cast_succ_mul (k : Nat) (c : Int) : ((k + 1 : Nat) : Int) * c = k * c + c := by
  rw [Nat.cast_succ, Int.add_mul, Int.one_mul]

section Steps

variable (h : Multiples lower upper increment a b c p)

include h

theorem lower_le_upper : a ≤ b := by
  have hunits := units_mono h.finite_lower h.finite_upper h.ordered
  rw [h.units_lower, h.units_upper] at hunits
  exact le_of_mul_le_mul_right hunits (by positivity)

theorem factor_pos : 0 < c := by
  have hunits := units_pos h.finite_increment h.increment_pos
  rw [h.units_increment] at hunits
  exact pos_of_mul_pos_left hunits (by positivity)

/-- What repeated addition leads to, up to one increment beyond the upper bound. -/
theorem units_level (hk : k * c ≤ b - a + c) :
    (level lower increment k).isFinite = true ∧ units (level lower increment k) = (a + k * c) * 2 ^ p := by
  induction k with
  | zero => exact ⟨h.finite_lower, by rw [level, h.units_lower, Nat.cast_zero, Int.zero_mul, Int.add_zero]⟩
  | succ k ih =>
    have hpos := h.factor_pos
    have hplace := h.place_le
    have hlow := h.lower_lt
    have hbeyond := h.beyond_lt
    have hnonneg : 0 ≤ k * c := Int.mul_nonneg (Int.natCast_nonneg k) hpos.le
    rw [cast_succ_mul] at hk ⊢
    obtain ⟨hfin, hunits⟩ := ih (by omega)
    -- The sum lies between the lower bound and one increment beyond the upper bound, so it has as few digits as these.
    refine units_add_exact hfin h.finite_increment (by omega) (by omega) ?_
    rw [hunits, h.units_increment, ← Int.add_mul, Int.add_assoc]

/-- The upper bound is passed as soon as the increments do not go into the width. -/
theorem level_le_iff (hk : k * c ≤ b - a + c) : level lower increment k ≤ upper ↔ k * c ≤ b - a := by
  obtain ⟨hfin, hunits⟩ := h.units_level hk
  rw [le_iff_rank (isNaN_of_isFinite hfin) (isNaN_of_isFinite h.finite_upper), ← units_le_iff hfin h.finite_upper,
    hunits, h.units_upper, mul_le_mul_iff_left₀ (by positivity)]
  omega

/-- Every step up to the upper bound moves. -/
theorem not_unmoved (hk : k * c ≤ b - a) : ¬ Unmoved lower increment k := by
  have hpos := h.factor_pos
  have hnext : (k + 1 : Nat) * c ≤ b - a + c := by
    rw [cast_succ_mul]
    omega
  obtain ⟨hfin, hunits⟩ := h.units_level (k := k) (by omega)
  obtain ⟨hfin', hunits'⟩ := h.units_level hnext
  intro hsame
  rw [Unmoved, beq_iff_rank (isNaN_of_isFinite hfin') (isNaN_of_isFinite hfin)] at hsame
  have heq := units_eq_of_rank_eq hfin' hfin hsame
  rw [hunits, hunits', cast_succ_mul] at heq
  have := Int.eq_of_mul_eq_mul_right (by positivity) heq
  omega

/-- The loop comes to as many numbers as the increment goes into the width. -/
theorem reaches_iff : Reaches lower upper increment k ↔ k * c ≤ b - a := by
  have hpos := h.factor_pos
  constructor
  · intro hreaches
    induction k with
    | zero =>
      have := h.lower_le_upper
      omega
    | succ k ih =>
      have hprev : k * c ≤ b - a :=
        ih ⟨fun j hj => hreaches.bounded j (Nat.le_succ_of_le hj), fun j hj => hreaches.moves j (Nat.lt_succ_of_lt hj)⟩
      -- Up to here the width is not left, so one more increment is still exact and can be compared with the bound.
      refine (h.level_le_iff ?_).mp (hreaches.bounded (k + 1) (Nat.le_refl _))
      rw [cast_succ_mul]
      omega
  · intro hk
    have hfew : ∀ j ≤ k, (j : Int) * c ≤ b - a := fun j hj =>
      Int.le_trans (Int.mul_le_mul_of_nonneg_right (Int.ofNat_le.mpr hj) hpos.le) hk
    exact ⟨fun j hj => (h.level_le_iff (by have := hfew j hj; omega)).mpr (hfew j hj),
      fun j hj => h.not_unmoved (hfew j (Nat.le_of_lt hj))⟩

theorem not_stalled : ¬ (Variable.real lower upper increment).Stalled := by
  rintro ⟨-, k, hreaches, hunmoved⟩
  exact h.not_unmoved (h.reaches_iff.mp hreaches) hunmoved

/-! ## Counting and indexing -/

/-- The points of the walk are what repeated addition leads to. -/
theorem points_eq : (Walk.through (.real lower upper increment)).points =
    (List.range ((b - a) / c + 1).toNat).map fun k => .real (level lower increment k) := by
  obtain ⟨n, hpoints, hvisits⟩ := Walk.visits_through (.real lower upper increment)
  have hquot : 0 ≤ (b - a) / c := Int.ediv_nonneg (Int.sub_nonneg.mpr h.lower_le_upper) h.factor_pos.le
  have hn : ∀ k, k < n ↔ (k : Int) ≤ (b - a) / c := fun k => by
    rw [hvisits k, and_iff_right h.increment_pos, h.reaches_iff, Int.le_ediv_iff_mul_le h.factor_pos]
  have hlast := (hn n).not
  have hfirst := hn (n - 1)
  rw [hpoints, show n = ((b - a) / c + 1).toNat by omega]

/-- The count is exact. -/
theorem size_eq (hsize : (Variable.real lower upper increment).domainSize? = some size) :
    size = ((b - a) / c + 1).toNat := by
  have hwidth := h.width_lt
  have hplace := h.place_le
  obtain ⟨hquot, hwhole⟩ := size_eq_whole h.ordered h.increment_pos hsize
  obtain ⟨hfin, hunits⟩ := units_sub_exact (a := b - a) (p := p) h.finite_upper h.finite_lower (by omega) (by omega)
    (by rw [h.units_upper, h.units_lower, Int.sub_mul])
  obtain ⟨hnonneg, hdiv⟩ := units_div_whole hfin hunits h.units_increment (Int.sub_nonneg.mpr h.lower_le_upper)
    (by omega) h.factor_pos hquot
  have := hwhole hnonneg
  omega

/-- The index formula gives the same numbers. -/
theorem valueAt?_level {index : UInt64} (hk : index.toNat * c ≤ b - a) :
    ∃ z, (Variable.real lower upper increment).valueAt? index = some (.real z) ∧
      (level lower increment index.toNat == z) = true := by
  have hpos := h.factor_pos
  have hplace := h.place_le
  have hwidth := h.width_lt
  have hlow := h.lower_lt
  have hupper := h.upper_lt
  have hfew : (index.toNat : Int) ≤ index.toNat * c := le_mul_of_one_le_right (Int.natCast_nonneg _) hpos
  obtain ⟨hi, hiunits⟩ := units_toFloat (i := index) (by omega)
  obtain ⟨hm, hmunits⟩ := units_mul_exact (a := index.toNat * c) (p := p) hi h.finite_increment (by omega) (by omega)
    (by rw [hiunits, h.units_increment, mul_mul_mul_comm, Int.mul_comm (2 ^ 1074), ← Int.mul_assoc])
  obtain ⟨hz, hzunits⟩ := units_add_exact (a := a + index.toNat * c) (p := p) h.finite_lower hm (by omega) (by omega)
    (by rw [h.units_lower, hmunits, Int.add_mul])
  obtain ⟨hl, hlunits⟩ := h.units_level (k := index.toNat) (by omega)
  refine ⟨_, rfl, ?_⟩
  rw [beq_iff_rank (isNaN_of_isFinite hl) (isNaN_of_isFinite hz), ← rankOfUnits_units hl, ← rankOfUnits_units hz,
    hlunits, hzunits]

/-- The loop comes to as many numbers as are counted. -/
theorem length_points (hsize : (Variable.real lower upper increment).domainSize? = some size) :
    (Walk.through (.real lower upper increment)).points.length = size := by
  rw [h.points_eq, List.length_map, List.length_range, h.size_eq hsize]

/-- What the loop comes to in a place is the exact sum, and the number with that index. -/
theorem getElem?_points (hk : k < (Walk.through (.real lower upper increment)).points.length) :
    ∃ (index : UInt64) (y z : Float), index.toNat = k ∧
      (Walk.through (.real lower upper increment)).points[k]? = some (.real y) ∧
      y.isFinite = true ∧ units y = units lower + k * units increment ∧
      (Variable.real lower upper increment).valueAt? index = some (.real z) ∧ (y == z) = true := by
  have hpos := h.factor_pos
  have hwidth := h.width_lt
  have hpoints := h.points_eq
  rw [hpoints, List.length_map, List.length_range] at hk
  have hfew : (k : Int) * c ≤ b - a := (Int.le_ediv_iff_mul_le hpos).mp (by omega)
  have hle : (k : Int) ≤ k * c := le_mul_of_one_le_right (Int.natCast_nonneg k) hpos
  have hword : (UInt64.ofNat k).toNat = k := UInt64.toNat_ofNat_of_lt (show k < 18446744073709551616 by omega)
  obtain ⟨hfin, hunits⟩ := h.units_level (k := k) (by omega)
  have hindex : ((UInt64.ofNat k).toNat : Int) * c ≤ b - a := by rwa [hword]
  obtain ⟨z, hvalue, hsame⟩ := h.valueAt?_level hindex
  rw [hword] at hsame
  refine ⟨.ofNat k, level lower increment k, z, hword, ?_, hfin, ?_, hvalue, hsame⟩
  · rw [hpoints, List.getElem?_map, List.getElem?_range hk]
    rfl
  · rw [hunits, h.units_lower, h.units_increment, Int.add_mul, Int.mul_assoc]

end Steps

end Variable.Multiples
end ParetoSweep
