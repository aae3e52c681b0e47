import ParetoSweep.Proofs.Decision.Walk
import ParetoSweep.Proofs.Number.Spacing
import ParetoSweep.Proofs.Problem.Defect

/-!
# Walks that get stuck in spite of the check

That the increment moves the wider bound does not mean that it moves every double between the bounds. A walk gets stuck
iff there is a double between the bounds that the increment does not move: it cannot get past it, since addition is
monotone (`Walk.stuck_reals_iff`). For a sound variable this happens in one kind of case only, in which the increment is
half of the last place of the wider bound and the mantissa of that bound is odd: a sum halfway between two doubles goes
to the even one, which is the next double at the wider bound and the old one at its neighbour
(`Variable.HalfPlace`, `Walk.stuck_through_iff`).
-/

namespace ParetoSweep

open Number
open Float.Model.UnpackedFloat (Sign)

/-! ## Climbing towards a number that is not moved -/

namespace Walk

section Climb

variable {upper increment x y : Float} {steps : Nat}

/-- A walk that gets stuck has met a number that the increment does not move. -/
theorem exists_unmoved_of_stuck (hinc : 0 ≤ rank increment) (h : (climb upper increment steps x).stuck = true) :
    ∃ y, x ≤ y ∧ y ≤ upper ∧ (y + increment == y) = true := by
  induction steps generalizing x with
  | zero => cases h
  | succ steps ih =>
    by_cases hle : x ≤ upper
    · rw [climb_of_le hle] at h
      split at h
      case isTrue hsame => exact ⟨x, le_self (isNaN_of_le hle).1, hle, hsame⟩
      case isFalse =>
        obtain ⟨y, hxy, hy, hsame⟩ := ih h
        exact ⟨y, le_of_add_le hinc hxy, hy, hsame⟩
    · rw [climb_of_not_le hle] at h
      cases h

/-- A walk never gets past a number that the increment does not move, so it gets stuck at or before it. -/
theorem stuck_of_unmoved (hinc : increment.isFinite = true) (hpos : 0 ≤ rank increment) (hy : y.isFinite = true)
    (hupper : y ≤ upper) (hsame : (y + increment == y) = true) (hx : x.isFinite = true) (hle : x ≤ y)
    (henough : Enough upper x steps) : (climb upper increment steps x).stuck = true := by
  induction steps generalizing x with
  | zero => exact absurd henough (not_enough_zero (Number.le_trans hle hupper))
  | succ steps ih =>
    have hxu := Number.le_trans hle hupper
    rw [climb_of_le hxu]
    split
    case isTrue => rfl
    case isFalse hne =>
      have hnext : x + increment ≤ y := add_le_of_add_beq hx hy hinc hle hsame
      refine ih ?_ hnext (henough.step hpos hxu (Bool.of_not_eq_true hne))
      exact isFinite_of_le_of_le hx hy (le_add hpos (isNaN_of_le hnext).1) hnext

end Climb

end Walk

/-! ## Half of the last place -/

/-- The increment is half of a place `2 ^ k`, and the bound farther from zero is an odd number `m` of such places with
all binary digits that a double has. If `m` is the next number after a power of two, the upper bound is not below that
power. -/
structure Variable.HalfPlace (lower upper increment : Float) (m k : Nat) : Prop where
  apart : lower < upper
  half : 2 * units increment = 2 ^ k
  wider : max (units lower).natAbs (units upper).natAbs = m * 2 ^ k
  odd : m % 2 = 1
  full : 4503599627370496 ≤ m
  lt : m < 9007199254740992
  reached : m = 4503599627370497 → 4503599627370496 * 2 ^ k ≤ units upper

section HalfPlace

variable {m n j k : Nat} {lower upper increment x y : Float}

/-- Of two numbers with at most 53 places the larger one has the larger place, if the smaller one is full. -/
theorem place_le (hn : 4503599627370496 ≤ n ∨ j = 0) (hm : m < 9007199254740992) (h : n * 2 ^ j ≤ m * 2 ^ k) :
    j ≤ k := by
  by_contra hlt
  have hpow : 2 ^ (k + 1) ≤ 2 ^ j := Nat.pow_le_pow_right (by decide) (by omega)
  have hlow : 4503599627370496 * 2 ^ j ≤ n * 2 ^ j := Nat.mul_le_mul_right _ (by omega)
  have hhigh : m * 2 ^ k < 9007199254740992 * 2 ^ k := Nat.mul_lt_mul_of_pos_right hm (Nat.two_pow_pos k)
  rw [Nat.pow_succ] at hpow
  omega

/-- What is lost at one place, but not at one that is no smaller, is half of both. -/
theorem half_of_lost {d : Nat} (hjk : j ≤ k) (hlost : Lost n j d) (hkept : ¬ Lost m k d) :
    j = k ∧ 2 * d = 2 ^ j ∧ m % 2 = 1 ∧ n % 2 = 0 := by
  have hpow : 2 ^ j ≤ 2 ^ k := Nat.pow_le_pow_right (by decide) hjk
  have hsame : 2 ^ j = 2 ^ k := by
    unfold Lost at hkept hlost
    omega
  obtain rfl : j = k := Nat.pow_right_injective (Nat.le_refl 2) hsame
  unfold Lost at hkept hlost
  omega

theorem units_wider (hl : lower.isFinite = true) (hu : upper.isFinite = true) :
    (larger lower.abs upper.abs).isFinite = true ∧
      units (larger lower.abs upper.abs) = (max (units lower).natAbs (units upper).natAbs : Nat) := by
  have hl' := isFinite_abs hl
  have hu' := isFinite_abs hu
  have hlt := lt_iff_rank (isNaN_of_isFinite hu') (isNaN_of_isFinite hl')
  have hle := units_le_iff hl' hu'
  rw [units_abs hl, units_abs hu] at hle
  unfold larger
  rw [isNaN_of_isFinite hu', Bool.or_false]
  split
  case isTrue h =>
    rw [decide_eq_true_iff, hlt] at h
    exact ⟨hl', by rw [units_abs hl]; omega⟩
  case isFalse h =>
    rw [decide_eq_true_iff, hlt] at h
    exact ⟨hu', by rw [units_abs hu]; omega⟩

/-- The wider bound is stored. -/
theorem exists_stored_wider (hl : lower.isFinite = true) (hu : upper.isFinite = true) : ∃ m k : Nat,
    Stored m (k - 1074) ∧ max (units lower).natAbs (units upper).natAbs = m * 2 ^ k := by
  obtain ⟨hfin, hunits⟩ := units_wider hl hu
  obtain ⟨s, m, k, hstored, hsigned, -⟩ := exists_stored hfin
  refine ⟨m, k, hstored, ?_⟩
  rw [← natAbs_apply s (m * 2 ^ k), ← hsigned, hunits, Int.natAbs_natCast]

/-- Steps that move the wider bound are at least half a place there, and more where the mantissa is even. -/
theorem not_lost_of_steps {d : Nat} (hs : (Variable.real lower upper increment).Sound)
    (hinc : increment.isFinite = true) (hd : units increment = d) (hpos : 0 < d) : ∃ (m k : Nat),
      Stored m (k - 1074) ∧ max (units lower).natAbs (units upper).natAbs = m * 2 ^ k ∧ ¬ Lost m k d := by
  have hl : lower.isFinite = true := hs.finite_lower
  have hu : upper.isFinite = true := hs.finite_upper
  have hsteps : (larger lower.abs upper.abs + increment != larger lower.abs upper.abs) = true := hs.steps
  obtain ⟨hfin, hunits⟩ := units_wider hl hu
  obtain ⟨m, k, hstored, hwider⟩ := exists_stored_wider hl hu
  refine ⟨m, k, hstored, hwider, fun hlost => ?_⟩
  have hsame := add_beq_of_lost (s := .positive) hfin hinc hd hpos hstored (by rw [hunits, hwider]; rfl)
    (fun h => nomatch h) hlost
  rw [bne, hsame] at hsteps
  cases hsteps

/-- Where a number between the bounds is not moved although the wider bound is, both have the same place, of which the
increment is half. -/
theorem halfPlace_of_unmoved {d : Nat} (hs : (Variable.real lower upper increment).Sound)
    (hinc : increment.isFinite = true) (hd : units increment = d) (hpos : 0 < d) (hlx : lower ≤ x) (hxu : x ≤ upper)
    (hsame : (x + increment == x) = true) : ∃ m k, Variable.HalfPlace lower upper increment m k := by
  have hl : lower.isFinite = true := hs.finite_lower
  have hu : upper.isFinite = true := hs.finite_upper
  have hx := isFinite_of_le_of_le hl hu hlx hxu
  have hlunits := units_mono hl hx hlx
  have huunits := units_mono hx hu hxu
  obtain ⟨m, k, hm, hwider, hkept⟩ := not_lost_of_steps hs hinc hd hpos
  obtain ⟨s, n, j, hn, hunits, hlost, hpower⟩ := lost_of_add_beq hx hinc hd hpos hsame
  have habs : (units x).natAbs = n * 2 ^ j := by rw [hunits, natAbs_apply]
  have hnfull := hn.full_or_least
  have hjk : j ≤ k := place_le (n := n) (by omega) hm.mantissa_lt (by omega)
  obtain ⟨rfl, hhalf, hodd, heven⟩ := half_of_lost hjk hlost hkept
  have hj : j ≠ 0 := by
    rintro rfl
    omega
  have hmfull := hm.full_or_least
  have hlt : n < m := by
    have hle : n * 2 ^ j ≤ m * 2 ^ j := by omega
    have := Nat.le_of_mul_le_mul_right hle (Nat.two_pow_pos j)
    omega
  have hstrict : n * 2 ^ j < m * 2 ^ j := Nat.mul_lt_mul_of_pos_right hlt (Nat.two_pow_pos j)
  refine ⟨m, j, ⟨?_, by rw [hd]; exact_mod_cast hhalf, hwider, hodd, by omega, hm.mantissa_lt, fun hm' => ?_⟩⟩
  · rw [lt_iff_rank (isNaN_of_isFinite hl) (isNaN_of_isFinite hu), ← Int.not_le, ← units_le_iff hu hl]
    omega
  · obtain rfl : n = 4503599627370496 := by omega
    cases s with
    | negative =>
      have := hpower rfl rfl
      omega
    | positive =>
      rw [hunits, Sign.apply] at huunits
      exact_mod_cast huunits

namespace Variable.HalfPlace

/-- The wider bound and the number before it are stored with the place that the increment is half of. -/
theorem stored (h : HalfPlace lower upper increment m k) (hl : lower.isFinite = true) (hu : upper.isFinite = true) :
    Stored m (k - 1074) ∧ Stored (m - 1) (k - 1074) := by
  obtain ⟨n, j, hstored, hwider⟩ := exists_stored_wider hl hu
  have hkj := place_le (Or.inl h.full) hstored.mantissa_lt (Nat.le_of_eq (h.wider.symm.trans hwider))
  have hj := hstored.exponent_le
  have hlt := h.lt
  have hfull := h.full
  have hodd := h.odd
  exact ⟨⟨by omega, by omega, by omega, by omega⟩, ⟨by omega, by omega, by omega, by omega⟩⟩

/-- The wider bound is the upper one if it is positive and the lower one if it is negative. -/
theorem wider_cases (h : HalfPlace lower upper increment m k) (hl : lower.isFinite = true)
    (hu : upper.isFinite = true) :
    units upper = (m * 2 ^ k : Nat) ∨ units lower = Sign.negative.apply (m * 2 ^ k : Nat) := by
  have hlt := units_strictMono hl hu h.apart
  have hwider := h.wider
  simp only [Sign.apply]
  omega

theorem magnitude_pred (h : HalfPlace lower upper increment m k) :
    magnitude m (k - 1074) = magnitude (m - 1 : Nat) (k - 1074) + 1 := by
  have hfull := h.full
  unfold magnitude
  omega

theorem rank_lt (h : HalfPlace lower upper increment m k) : rank lower < rank upper :=
  (lt_iff_rank (isNaN_of_lt h.apart).1 (isNaN_of_lt h.apart).2).mp h.apart

/-- A double with the mantissa `m - 1`, if that is placed between the bounds. -/
theorem exists_of_rank {s : Sign} (h : HalfPlace lower upper increment m k) (hl : lower.isFinite = true)
    (hu : upper.isFinite = true) (hlow : rank lower ≤ s.apply (magnitude (m - 1 : Nat) (k - 1074)))
    (hhigh : s.apply (magnitude (m - 1 : Nat) (k - 1074)) ≤ rank upper) : ∃ x : Float,
      x.isFinite = true ∧ lower ≤ x ∧ x ≤ upper ∧ units x = s.apply ((m - 1) * 2 ^ k : Nat) := by
  have hfull := h.full
  obtain ⟨x, hx, hunits, hrank⟩ := exists_of_stored s (h.stored hl hu).2 (by omega)
  rw [← hrank] at hlow hhigh
  have hxnan := isNaN_of_isFinite hx
  exact ⟨x, hx, (le_iff_rank (isNaN_of_isFinite hl) hxnan).mpr hlow,
    (le_iff_rank hxnan (isNaN_of_isFinite hu)).mpr hhigh, hunits⟩

/-- Next to a power of two the upper bound reaches that power. -/
theorem le_rank_upper (h : HalfPlace lower upper increment m k) (hl : lower.isFinite = true)
    (hu : upper.isFinite = true) (hm : m = 4503599627370497) : magnitude (m - 1 : Nat) (k - 1074) ≤ rank upper := by
  have hreached : (((m - 1) * 2 ^ k : Nat) : Int) ≤ units upper := by
    have := h.reached hm
    rw [hm]
    exact_mod_cast this
  rw [← nearest_stored_units (h.stored hl hu).2, ← rankOfUnits_natCast, ← rankOfUnits_units hu]
  exact rankOfUnits_mono hreached

/-- The number before the wider bound, or that of the other sign, lies between the bounds. -/
theorem exists_between (h : HalfPlace lower upper increment m k) (hl : lower.isFinite = true)
    (hu : upper.isFinite = true) : ∃ (x : Float) (s : Sign), x.isFinite = true ∧ lower ≤ x ∧ x ≤ upper ∧
      units x = s.apply ((m - 1) * 2 ^ k : Nat) ∧ (s = .negative → 4503599627370496 < m - 1) := by
  have hfull := h.full
  have hodd := h.odd
  have hm := (h.stored hl hu).1
  have hpos := hm.magnitude_pos (by omega)
  have hpred := h.magnitude_pred
  have hlt := h.rank_lt
  rcases h.wider_cases hl hu with hupper | hlower
  · have hrank : rank upper = magnitude m (k - 1074) := rank_of_units_eq (s := .positive) hu hm hupper
    obtain ⟨x, hx⟩ := h.exists_of_rank (s := .positive) hl hu (by rw [Sign.apply]; omega) (by rw [Sign.apply]; omega)
    exact ⟨x, .positive, hx.1, hx.2.1, hx.2.2.1, hx.2.2.2, fun hs => by cases hs⟩
  · have hrank : rank lower = -magnitude m (k - 1074) := rank_of_units_eq (s := .negative) hl hm hlower
    by_cases hpower : m = 4503599627370497
    · have hhigh := h.le_rank_upper hl hu hpower
      obtain ⟨x, hx⟩ := h.exists_of_rank (s := .positive) hl hu (by rw [Sign.apply]; omega) (by rwa [Sign.apply])
      exact ⟨x, .positive, hx.1, hx.2.1, hx.2.2.1, hx.2.2.2, fun hs => by cases hs⟩
    · obtain ⟨x, hx⟩ := h.exists_of_rank (s := .negative) hl hu (by rw [Sign.apply]; omega) (by rw [Sign.apply]; omega)
      exact ⟨x, .negative, hx.1, hx.2.1, hx.2.2.1, hx.2.2.2, fun _ => by omega⟩

/-- The increment does not move that number. -/
theorem exists_unmoved (h : HalfPlace lower upper increment m k) (hl : lower.isFinite = true)
    (hu : upper.isFinite = true) : ∃ x, lower ≤ x ∧ x ≤ upper ∧ (x + increment == x) = true := by
  obtain ⟨x, s, hx, hlx, hxu, hunits, hpower⟩ := h.exists_between hl hu
  have hhalf := h.half
  have hodd := h.odd
  have hpos : (0 : Int) < 2 ^ k := by exact_mod_cast Nat.two_pow_pos k
  have hd : units increment = (units increment).toNat := (Int.toNat_of_nonneg (by omega)).symm
  refine ⟨x, hlx, hxu, ?_⟩
  refine add_beq_of_lost hx (isFinite_of_units_ne_zero (by omega)) hd (by omega) (h.stored hl hu).2 hunits hpower ?_
  refine Or.inr ⟨?_, by omega⟩
  zify
  rw [← hd, hhalf]

end Variable.HalfPlace

end HalfPlace

/-! ## Stalling walks -/

/-- The increment of a real variable is lost to rounding somewhere between its bounds, although it is not at the wider
one. -/
def Variable.Stalls : Variable → Prop
  | .real lower upper increment => ∃ m k, HalfPlace lower upper increment m k
  | _ => False

section Stalls

variable {v : Variable} {lower upper increment : Float}

theorem units_pos (hfin : increment.isFinite = true) (hpos : 0 < increment) : 0 < units increment := by
  have hzero : units 0 = 0 := by decide
  have := units_strictMono (by decide) hfin hpos
  omega

/-- The walk through a sound domain gets stuck iff the increment does not move some double between the bounds, whether
or not the walk would get there. -/
theorem Walk.stuck_reals_iff (hs : (Variable.real lower upper increment).Sound) :
    (Walk.reals lower upper increment).stuck = true ↔
      ∃ x, lower ≤ x ∧ x ≤ upper ∧ (x + increment == x) = true := by
  have hpos : 0 < increment := hs.increment_pos
  have hl : lower.isFinite = true := hs.finite_lower
  have hu : upper.isFinite = true := hs.finite_upper
  have hrank := rank_nonneg_of_pos hpos
  rw [Walk.reals, if_pos hpos]
  constructor
  · exact exists_unmoved_of_stuck hrank
  · rintro ⟨x, hlx, hxu, hsame⟩
    have hx := isFinite_of_le_of_le hl hu hlx hxu
    exact stuck_of_unmoved (isFinite_of_add_beq hx hsame) hrank hx hxu hsame hl hlx (enough_reals lower upper)

/-- The walk through a sound domain gets stuck iff the variable stalls. -/
theorem Walk.stuck_through_iff (hs : v.Sound) : (Walk.through v).stuck = true ↔ v.Stalls := by
  cases v with
  | binary => exact ⟨fun h => (nomatch h), fun h => h.elim⟩
  | integer lower upper => exact ⟨fun h => (nomatch h), fun h => h.elim⟩
  | real lower upper increment =>
    have hl : lower.isFinite = true := hs.finite_lower
    have hu : upper.isFinite = true := hs.finite_upper
    rw [Walk.through, Walk.stuck_reals_iff hs, Variable.Stalls]
    constructor
    · rintro ⟨x, hlx, hxu, hsame⟩
      have hinc := isFinite_of_add_beq (isFinite_of_le_of_le hl hu hlx hxu) hsame
      have hpos := units_pos hinc hs.increment_pos
      exact halfPlace_of_unmoved hs hinc (Int.toNat_of_nonneg (by omega)).symm (by omega) hlx hxu hsame
    · rintro ⟨m, k, h⟩
      exact h.exists_unmoved hl hu

end Stalls
end ParetoSweep
