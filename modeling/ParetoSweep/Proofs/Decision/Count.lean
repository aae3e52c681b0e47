import ParetoSweep.Proofs.Decision.Stall
import ParetoSweep.Proofs.Decision.Visits
import ParetoSweep.Proofs.Number.Quotient

/-!
# Counted and visited points

The points of a real variable are counted by dividing the width of its domain by the increment, once, and visited by
adding the increment again and again, rounding each time. A step of the walk is off by at most half of the last place of
the bound farther from zero (`widestPlace`), so `k` steps are off by at most `k` such halves (`drift`); the count is
off by three places (`size_bounds`), however many points there are. So both numbers differ by at most one if the
increment has room for that many places, and by as much as the places outgrow the increment if not
(`Walk.length_through`).
-/

namespace ParetoSweep

open Number
open Float.Model (UnpackedFloat)
open Float.Model.UnpackedFloat (Sign)

/-! ## Places between the bounds -/

/-- The last place of the bound that is farther from zero. -/
def widestPlace (lower upper : Float) : Nat := place (max (units lower).natAbs (units upper).natAbs)

section Places

variable {lower upper increment x : Float} {k : Nat}

/-- No number between the bounds has a larger place. -/
theorem place_le_widestPlace (hl : lower.isFinite = true) (hu : upper.isFinite = true) (hlx : lower ≤ x)
    (hxu : x ≤ upper) : place (units x).natAbs ≤ widestPlace lower upper := by
  have hx := isFinite_of_le_of_le hl hu hlx hxu
  have hlow := units_mono hl hx hlx
  have hhigh := units_mono hx hu hxu
  exact place_mono (by omega)

/-- The bounds have at most 53 binary digits before that place. -/
theorem max_add_widestPlace_le (hl : lower.isFinite = true) (hu : upper.isFinite = true) :
    max (units lower).natAbs (units upper).natAbs + widestPlace lower upper
      ≤ 9007199254740992 * widestPlace lower upper := by
  obtain ⟨m, k, hstored, hwider⟩ := exists_stored_wider hl hu
  have hfull := hstored.full_or_least
  have hplace : widestPlace lower upper = 2 ^ k := by
    have hlog := log2_of_place hstored.mantissa_lt (by omega : 4503599627370496 ≤ m ∨ k = 0) (Nat.two_pow_pos k)
    rw [widestPlace, hwider, place, ← Nat.add_zero (m * 2 ^ k), hlog]
  rw [hplace, hwider, ← Nat.succ_mul]
  exact Nat.mul_le_mul_right _ hstored.mantissa_lt

/-! ## The drift of a walk -/

theorem lower_le_level (hinc : 0 ≤ rank increment) (h : level lower increment k ≤ upper) :
    lower ≤ level lower increment k := by
  induction k with
  | zero => exact le_self (isNaN_of_le h).1
  | succ k ih => exact Number.le_trans (ih (le_of_add_le hinc h)) (le_add hinc (isNaN_of_le h).1)

/-- Up to the upper bound every step adds at most half of a place to the error. -/
theorem drift (hl : lower.isFinite = true) (hu : upper.isFinite = true) (hfin : increment.isFinite = true)
    (hinc : 0 ≤ rank increment) (h : level lower increment k ≤ upper) :
    2 * (units (level lower increment k) - (units lower + k * units increment)).natAbs
      ≤ k * widestPlace lower upper := by
  induction k with
  | zero => simp [level]
  | succ k ih =>
    have hprev : level lower increment k ≤ upper := le_of_add_le hinc h
    have hprevfin := isFinite_of_le_of_le hl hu (lower_le_level hinc hprev) hprev
    have hfin' := isFinite_of_le_of_le hl hu (lower_le_level hinc h) h
    have hstep := error_add hprevfin hfin hfin'
    have hplace := place_le_widestPlace hl hu (lower_le_level hinc h) h
    have hrun := ih hprev
    -- The place of the sum is that of a number between the bounds, although the exact sum may lie beyond them.
    rw [level] at hplace ⊢
    push_cast
    rw [Int.add_mul, Int.one_mul, Nat.add_one_mul k]
    omega

end Places

/-! ## The number of visited points -/

section Visited

variable {lower upper increment : Float} {n size : Nat}

/-- Where the walk through a sound domain ends: its last point is not above the upper bound, and one more step would
lead past it. -/
theorem last_of_visits (hs : (Variable.real lower upper increment).Sound) (hfin : increment.isFinite = true)
    (hstalled : ¬ (Variable.real lower upper increment).Stalled)
    (hvisits : ∀ k, k < n ↔ 0 < increment ∧ Reaches lower upper increment k) :
    ∃ k, n = k + 1 ∧ level lower increment k ≤ upper ∧
      units upper < units (level lower increment k) + units increment := by
  have hl : lower.isFinite = true := hs.finite_lower
  have hu : upper.isFinite = true := hs.finite_upper
  have hpos : 0 < increment := hs.increment_pos
  have hinc := Walk.rank_nonneg_of_pos hpos
  obtain ⟨k, rfl⟩ : ∃ k, n = k + 1 :=
    Nat.exists_eq_succ_of_ne_zero (Nat.ne_of_gt ((hvisits 0).mpr ⟨hpos, reaches_zero_iff.mpr hs.ordered⟩))
  have hreaches : Reaches lower upper increment k := ((hvisits k).mp (Nat.lt_succ_self k)).2
  have hlast := hreaches.bounded k (Nat.le_refl k)
  have hlastfin := isFinite_of_le_of_le hl hu (lower_le_level hinc hlast) hlast
  refine ⟨k, rfl, hlast, ?_⟩
  by_contra hle
  have hnext : level lower increment (k + 1) ≤ upper := by
    rw [level, le_iff_rank (isNaN_add_of_isFinite hlastfin hfin) (isNaN_of_isFinite hu), rank_add hlastfin hfin,
      ← rankOfUnits_units hu]
    exact rankOfUnits_mono (Int.not_lt.mp hle)
  have hgoes : Reaches lower upper increment (k + 1) := by
    constructor
    · intro j hj
      rcases Nat.lt_or_eq_of_le hj with hlt | rfl
      · exact hreaches.bounded j (Nat.le_of_lt_succ hlt)
      · exact hnext
    · -- Only a stalled walk ends at a number that is not above the upper bound.
      intro j hj hunmoved
      exact hstalled ⟨hpos, j, ((hvisits j).mp hj).2, hunmoved⟩
  exact Nat.lt_irrefl _ ((hvisits (k + 1)).mpr ⟨hpos, hgoes⟩)

/-- The steps of a walk cover the width of the domain up to the drift. -/
theorem visited_bounds (hs : (Variable.real lower upper increment).Sound) (hfin : increment.isFinite = true)
    (hstalled : ¬ (Variable.real lower upper increment).Stalled)
    (hvisits : ∀ k, k < n ↔ 0 < increment ∧ Reaches lower upper increment k) : ∃ k : Nat, n = k + 1 ∧
      2 * (k * units increment) ≤ 2 * (units upper - units lower) + k * widestPlace lower upper ∧
      2 * (units upper - units lower) < 2 * ((k + 1) * units increment) + k * widestPlace lower upper := by
  have hl : lower.isFinite = true := hs.finite_lower
  have hu : upper.isFinite = true := hs.finite_upper
  have hpos : 0 < increment := hs.increment_pos
  have hinc := Walk.rank_nonneg_of_pos hpos
  obtain ⟨k, rfl, hlast, hpast⟩ := last_of_visits hs hfin hstalled hvisits
  have hdrift := drift hl hu hfin hinc hlast
  have hbelow := units_mono (isFinite_of_le_of_le hl hu (lower_le_level hinc hlast) hlast) hu hlast
  refine ⟨k, rfl, ?_, ?_⟩
  · omega
  · rw [Int.add_mul, Int.one_mul]
    omega

end Visited

/-! ## The count -/

section Counted

variable {lower upper increment : Float} {size : Nat}

theorem units_countLimit : units 18446744073709551616.0 = 18446744073709551616 * 2 ^ 1074 := by decide +kernel

/-- A count is one more than the whole part of the quotient. -/
theorem size_eq_whole (hordered : lower ≤ upper) (hpos : 0 < increment)
    (hsize : (Variable.real lower upper increment).domainSize? = some size) :
    ((upper - lower) / increment).isFinite = true ∧
      (0 ≤ units ((upper - lower) / increment) →
        (size : Int) = units ((upper - lower) / increment) / 2 ^ 1074 + 1) := by
  simp only [Variable.domainSize?] at hsize
  rw [if_pos ⟨hordered, hpos⟩] at hsize
  split at hsize
  case isFalse => cases hsize
  case isTrue h =>
    obtain ⟨hfloor, hlimit⟩ := h
    have hquot := isFinite_of_floor hfloor
    refine ⟨hquot, fun hnonneg => ?_⟩
    have hunits := (units_floor hquot).2
    have hbelow := units_strictMono hfloor (by decide +kernel) hlimit
    rw [units_countLimit] at hbelow
    have hwhole : 0 ≤ units (floor ((upper - lower) / increment)) := by
      rw [hunits]
      exact Int.mul_nonneg (Int.ediv_nonneg hnonneg (by positivity)) (by positivity)
    have hword := toNat_toUInt64 hfloor hwhole hbelow
    rw [hunits, Int.mul_ediv_cancel _ (by positivity)] at hword
    rw [← Option.some.inj hsize, ← hword]
    rfl

theorem units_sub_nonneg (hl : lower.isFinite = true) (hu : upper.isFinite = true) (h : lower ≤ upper) :
    0 ≤ units (upper - lower) := by
  have hunits := units_mono hl hu h
  by_cases hwidth : (upper - lower).isFinite = true
  · have hzero : units 0 ≤ units (upper - lower) := by
      rw [units_le_iff (by decide) hwidth, rank_sub hu hl]
      exact rankOfUnits_mono (a := 0) (by omega)
    exact hzero
  · by_contra hneg
    exact hwidth (isFinite_of_units_ne_zero (by omega))

/-- The counted steps cover the width of the domain up to three places: one for the width, which is at most twice the
bound farther from zero, and two for the quotient. -/
theorem size_bounds (hs : (Variable.real lower upper increment).Sound) (hc : 0 < units increment)
    (hsize : (Variable.real lower upper increment).domainSize? = some size) :
    (size - 1) * units increment ≤ units upper - units lower + 3 * widestPlace lower upper ∧
      units upper - units lower < size * units increment + 3 * widestPlace lower upper := by
  have hl : lower.isFinite = true := hs.finite_lower
  have hu : upper.isFinite = true := hs.finite_upper
  have hordered : lower ≤ upper := hs.ordered
  have hpos : 0 < increment := hs.increment_pos
  have ha := units_sub_nonneg hl hu hordered
  obtain ⟨hquot, hsize⟩ := size_eq_whole hordered hpos hsize
  have hwidth := isFinite_left_of_div hc hquot
  obtain ⟨hnonneg, hlow, hhigh⟩ := whole_div_bounds hwidth ha hc hquot
  replace hsize := hsize hnonneg
  rw [show units ((upper - lower) / increment) / 2 ^ 1074 = size - 1 by rw [hsize, Int.add_sub_cancel]] at hlow hhigh
  rw [Int.sub_add_cancel] at hhigh
  have hmax := max_add_widestPlace_le hl hu
  have herror : (units (upper - lower) - (units upper - units lower)).natAbs ≤ widestPlace lower upper := by
    have hdouble := place_two_mul_le (max (units lower).natAbs (units upper).natAbs)
    have hplace : place (units upper - units lower).natAbs
        ≤ place (2 * max (units lower).natAbs (units upper).natAbs) := place_mono (by omega)
    have := error_sub hu hl hwidth
    rw [← widestPlace] at hdouble
    omega
  -- The width is less than `2 ^ 54` places, so the relative error of the quotient is less than two of them.
  constructor <;> omega

end Counted

/-! ## Infinite increments -/

section Infinite

variable {lower upper increment x y : Float} {size n : Nat}

/-- A positive number that is not finite is infinite. -/
theorem unpack_of_pos_of_not_isFinite (hpos : 0 < x) (hinf : ¬ x.isFinite = true) :
    x.toModel.unpack = .infinity .positive := by
  have hnan : x.toModel.unpack.isNaN = false := (isNaN_of_lt hpos).2
  have hinc := Walk.rank_nonneg_of_pos hpos
  rw [rank_eq_position] at hinc
  change ¬ x.toModel.unpack.isFinite = true at hinf
  cases hu : x.toModel.unpack with
  | finite s m e hm => exact absurd (by rw [hu]; rfl) hinf
  | zero s => exact absurd (by rw [hu]; rfl) hinf
  | notANumber =>
    rw [hu] at hnan
    cases hnan
  | infinity s =>
    cases s with
    | positive => rfl
    | negative =>
      rw [hu] at hinc
      exact absurd hinc (by decide)

/-- A quotient by an infinite number is zero or no number. -/
theorem units_div_infinite {s : Sign} (hy : y.toModel.unpack = .infinity s) : units (x / y) = 0 := by
  have hdiv : ∀ u : UnpackedFloat, UnpackedFloat.div .binary64 u (.infinity s) = .notANumber ∨
      ∃ t, UnpackedFloat.div .binary64 u (.infinity s) = .zero t
    | .notANumber => Or.inl rfl
    | .infinity _ => Or.inl rfl
    | .zero _ => Or.inr ⟨_, rfl⟩
    | .finite .. => Or.inr ⟨_, rfl⟩
  show unitsOf (Float.Model.pack (UnpackedFloat.div .binary64 x.toModel.unpack y.toModel.unpack)).unpack = 0
  rw [hy]
  obtain h | ⟨t, h⟩ := hdiv x.toModel.unpack <;> rw [h, unpack_pack (fun _ _ _ _ h => by cases h)] <;> rfl

/-- Adding an infinite number to a finite one leads past every finite number. -/
theorem not_add_infinite_le (hx : x.isFinite = true) (hu : upper.isFinite = true)
    (hy : y.toModel.unpack = .infinity .positive) : ¬ x + y ≤ upper := by
  intro hle
  obtain ⟨hsum, hupper⟩ := isNaN_of_le hle
  rw [le_iff_rank hsum hupper] at hle
  have htop : rank (x + y) = topRank := by
    rw [rank_add_eq, hy]
    obtain ⟨s, hx⟩ | ⟨s, m, e, hm, hx⟩ := cases_of_isFinite hx <;> rw [hx] <;>
      exact (by decide : position (Float.Model.pack (.infinity .positive)).unpack = topRank)
  have := ((isFinite_iff_rank hupper).mp hu).2
  omega

/-- Nothing is rounded where the increment is infinite: one point is counted, and one visited. -/
theorem one_of_infinite (hs : (Variable.real lower upper increment).Sound) (hinf : ¬ increment.isFinite = true)
    (hsize : (Variable.real lower upper increment).domainSize? = some size)
    (hvisits : ∀ k, k < n ↔ 0 < increment ∧ Reaches lower upper increment k) : size = 1 ∧ n = 1 := by
  have hordered : lower ≤ upper := hs.ordered
  have hpos : 0 < increment := hs.increment_pos
  have hunpack := unpack_of_pos_of_not_isFinite hpos hinf
  constructor
  · have hzero := units_div_infinite (x := upper - lower) hunpack
    have hwhole := (size_eq_whole hordered hpos hsize).2 (Int.le_of_eq hzero.symm)
    rw [hzero, Int.zero_ediv] at hwhole
    omega
  · have hfirst := (hvisits 0).mpr ⟨hpos, reaches_zero_iff.mpr hordered⟩
    have hsecond : ¬ 1 < n := fun h =>
      not_add_infinite_le hs.finite_lower hs.finite_upper hunpack (((hvisits 1).mp h).2.bounded 1 (Nat.le_refl 1))
    omega

end Infinite

/-! ## Counted and visited -/

section Close

variable {c d p : Int} {k size : Nat}

/-- Numbers of steps that both cover a width, one up to its drift and the other up to three places. -/
theorem abs_sub_lt_of_bounds (hlow : 2 * (k * c) ≤ 2 * d + k * p) (hhigh : 2 * d < 2 * ((k + 1) * c) + k * p)
    (hsize : (size - 1) * c ≤ d + 3 * p) (hsize' : d < size * c + 3 * p) :
    2 * c * |((k + 1 : Nat) : Int) - size| < 2 * c + ((k + 1 : Nat) + 5) * p := by
  push_cast
  rcases le_total 0 ((k : Int) + 1 - size) with hle | hle
  · rw [abs_of_nonneg hle]
    linarith
  · rw [abs_of_nonpos hle]
    linarith

/-- They differ by at most one if there is room for the drift: a difference of one more than `i` would take `i`
increments, but there are only places for less. -/
theorem abs_sub_le_one {n : Nat} (hp : 0 < p) (h : 2 * c * |(n : Int) - size| < 2 * c + (n + 5) * p)
    (hroom : (size + 7) * p ≤ 2 * c) : |(n : Int) - size| ≤ 1 := by
  by_contra hfar
  obtain ⟨i, hi, hdiff⟩ : ∃ i : Int, 1 ≤ i ∧ |(n : Int) - size| = i + 1 := ⟨|(n : Int) - size| - 1, by omega, by omega⟩
  rw [hdiff] at h
  have hplaces : (size + 7) * p * i < (n + 5) * p := by
    have hscaled : (size + 7) * p * i ≤ 2 * c * i := by gcongr
    linarith
  have hcancel : (size + 7) * i < (n + 5 : Int) := by
    refine lt_of_mul_lt_mul_right ?_ hp.le
    linarith
  have hreach : (n : Int) ≤ size + i + 1 := by
    have := le_abs_self ((n : Int) - size)
    omega
  have hmany : (size : Int) + 7 + (i - 1) ≤ (size + 7) * i := by
    have hrest : (i - 1) * 1 ≤ (i - 1) * (size + 7) := Int.mul_le_mul_of_nonneg_left (by omega) (by omega)
    linarith
  omega

end Close

namespace Walk

variable {lower upper increment : Float} {size count : Nat}

/-- **A walk visits as many points as are counted, up to its drift**, which is half of the last place at the wider bound
for each step. So the numbers differ by at most one if all these places fit in twice the increment. -/
theorem length_through (hs : (Variable.real lower upper increment).Sound)
    (hsize : (Variable.real lower upper increment).domainSize? = some size)
    (hstuck : (through (.real lower upper increment)).stuck = false)
    (hcount : (through (.real lower upper increment)).points.length = count) :
    (increment.isFinite = true → 2 * units increment * |(count : Int) - size|
      < 2 * units increment + (count + 5) * widestPlace lower upper) ∧
    ((increment.isFinite = true → (size + 7) * widestPlace lower upper ≤ 2 * units increment) →
      |(count : Int) - size| ≤ 1) := by
  obtain ⟨n, hpoints, hvisits⟩ := visits_through (.real lower upper increment)
  rw [hpoints, List.length_map, List.length_range] at hcount
  subst hcount
  by_cases hfin : increment.isFinite = true
  · have hc := units_pos hfin hs.increment_pos
    have hstalled : ¬ (Variable.real lower upper increment).Stalled := by
      rw [← stuck_through_iff_stalled, hstuck]
      exact Bool.false_ne_true
    obtain ⟨k, rfl, hlow, hhigh⟩ := visited_bounds hs hfin hstalled hvisits
    obtain ⟨hsize, hsize'⟩ := size_bounds hs hc hsize
    have hclose := abs_sub_lt_of_bounds hlow hhigh hsize hsize'
    exact ⟨fun _ => hclose, fun hroom => abs_sub_le_one (by exact_mod_cast place_pos _) hclose (hroom hfin)⟩
  · obtain ⟨rfl, rfl⟩ := one_of_infinite hs hfin hsize hvisits
    exact ⟨fun h => absurd h hfin, fun _ => by decide⟩

/-- In tenths from 0 to 1 there is room for the drift of eleven points. -/
theorem length_through_tenths : (Variable.real 0 1 0.1).Sound ∧ (Variable.real 0 1 0.1).domainSize? = some 11 ∧
    |((through (.real 0 1 0.1)).points.length : Int) - 11| ≤ 1 := by
  have hs : (Variable.real 0 1 0.1).Sound := by constructor <;> decide +kernel
  have hsize : (Variable.real 0 1 0.1).domainSize? = some 11 := by decide +kernel
  exact ⟨hs, hsize, (length_through hs hsize (by decide +kernel) rfl).2 fun _ => by decide +kernel⟩

/-- From `2 ^ 53` on there are even numbers only, so steps of two and a half are rounded to two: of a domain of width 20
nine points are counted and eleven visited. -/
theorem exists_length_through_far : ∃ (lower upper increment : Float) (size : Nat),
    (Variable.real lower upper increment).Sound ∧ (Variable.real lower upper increment).domainSize? = some size ∧
      (through (.real lower upper increment)).stuck = false ∧
      ¬ |((through (.real lower upper increment)).points.length : Int) - size| ≤ 1 := by
  refine ⟨9007199254740992, 9007199254741012, 2.5, 9, ?_, ?_, ?_, ?_⟩
  · constructor <;> decide +kernel
  · decide +kernel
  · decide +kernel
  · decide +kernel

end Walk

end ParetoSweep
