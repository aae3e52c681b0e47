import ParetoSweep.Proofs.Number.Arithmetic

/-!
# Doubles as whole numbers of the least one

Every finite double is a whole number of times the least positive one (`units`). In these units addition is exact
addition followed by one rounding (`rank_add`), and this rounding is monotone (`rankOfUnits_mono`) and gives every
double back (`rankOfUnits_units`). So units are in the order of ranks (`units_le_iff`), adding the same number to both
sides keeps the order (`add_le_add_right`), and what does not move a number does not lead past it from below
(`add_le_of_add_beq`).
-/

namespace ParetoSweep
namespace Number

open Float.Model (UnpackedFloat)
open Float.Model.UnpackedFloat

/-! ## Rounding whole numbers -/

section Nearest

variable {n : Nat} {e : Int}

/-- A common factor does not change a rounded quotient. -/
theorem quotientToEven_mul_mul (n d : Nat) {c : Nat} (hc : 0 < c) :
    quotientToEven (n * c) (d * c) = quotientToEven n d := by
  have hmod : 2 * (n % d * c) = 2 * (n % d) * c := (Nat.mul_assoc ..).symm
  unfold quotientToEven
  simp only [Nat.mul_div_mul_right _ _ hc, Nat.mul_mod_mul_right, hmod, Nat.mul_lt_mul_right hc]

/-- The rounded mantissa depends on the number only, not on the way it is written. -/
theorem significand_mul_two_pow (hn : 0 < n) (e : Int) (k : Nat) :
    significand (n * 2 ^ k) (e - k) = significand n e := by
  unfold significand
  rw [lastPlace_mul_two_pow hn]
  generalize lastPlace n e = q
  have hpow : n * 2 ^ k * 2 ^ (e - k - q).toNat * 2 ^ (q - e).toNat
      = n * 2 ^ (e - q).toNat * 2 ^ (q - (e - k)).toNat := by
    rw [Nat.mul_assoc, Nat.mul_assoc, Nat.mul_assoc, ← Nat.pow_add, ← Nat.pow_add, ← Nat.pow_add]
    congr 2
    omega
  rw [← quotientToEven_mul_mul _ _ (Nat.two_pow_pos (q - e).toNat), hpow, Nat.mul_comm (2 ^ (q - (e - k)).toNat),
    quotientToEven_mul_mul _ _ (Nat.two_pow_pos _)]

theorem nearest_mul_two_pow (hn : 0 < n) (e : Int) (k : Nat) : nearest (n * 2 ^ k) (e - k) = nearest n e := by
  unfold nearest
  rw [significand_mul_two_pow hn, lastPlace_mul_two_pow hn]

end Nearest

/-- The position of the double nearest to a whole number of least doubles. -/
def rankOfUnits (n : Int) : Int := if 0 ≤ n then nearest n.toNat (-1074) else -nearest (-n).toNat (-1074)

section Rounded

variable {a b : Int}

theorem nearest_zero : nearest 0 (-1074) = 0 := by decide

theorem rankOfUnits_natCast (n : Nat) : rankOfUnits n = nearest n (-1074) := by
  rw [rankOfUnits, if_pos (Int.natCast_nonneg n), Int.toNat_natCast]

/-- Rounding does not look at the sign. -/
theorem rankOfUnits_neg (a : Int) : rankOfUnits (-a) = -rankOfUnits a := by
  unfold rankOfUnits
  rcases Int.lt_trichotomy a 0 with h | rfl | h
  · rw [if_pos (by omega), if_neg (by omega), Int.neg_neg]
  · simp [nearest_zero]
  · rw [if_neg (by omega), if_pos (by omega), Int.neg_neg]

theorem nearest_natCast_mono {m n : Nat} (h : m ≤ n) : nearest m (-1074) ≤ nearest n (-1074) := by
  rcases Nat.eq_zero_or_pos m with rfl | hm
  · rw [nearest_zero]
    exact nearest_nonneg
  · exact nearest_mono hm h _

/-- Rounding is monotone. -/
theorem rankOfUnits_mono (h : a ≤ b) : rankOfUnits a ≤ rankOfUnits b := by
  unfold rankOfUnits
  split
  · rw [if_pos (by omega)]
    exact nearest_natCast_mono (by omega)
  · split
    · have := @nearest_nonneg (-a).toNat (-1074)
      have := @nearest_nonneg b.toNat (-1074)
      omega
    · have := @nearest_natCast_mono (-b).toNat (-a).toNat (by omega)
      omega

/-- What a sum of parts is rounded to. -/
theorem position_normalize {e : Int} (he : -1074 ≤ e) (n : Int) (z : Sign) :
    position (Float.Model.pack (UnpackedFloat.normalize .binary64 n e z)).unpack
      = rankOfUnits (n * 2 ^ (e + 1074).toNat) := by
  have hplace : e - ((e + 1074).toNat : Int) = -1074 := by omega
  have hscale : ∀ m : Nat, 0 < m → rankOfUnits ((m : Int) * 2 ^ (e + 1074).toNat) = nearest m e := by
    intro m hm
    rw [← nearest_mul_two_pow hm e (e + 1074).toNat, hplace, ← rankOfUnits_natCast]
    push_cast
    rfl
  rcases Int.lt_trichotomy n 0 with hlt | rfl | hgt
  · rw [position_normalize_neg hlt, ← hscale _ (by omega), ← rankOfUnits_neg, Int.toNat_of_nonneg (by omega),
      Int.neg_mul, Int.neg_neg]
  · rw [Int.zero_mul, show UnpackedFloat.normalize .binary64 0 e z = .zero z from rfl,
      unpack_pack (fun _ _ _ _ h => by cases h)]
    rfl
  · rw [position_normalize_pos hgt, ← hscale _ (by omega), Int.toNat_of_nonneg (by omega)]

end Rounded

/-! ## Units -/

/-- How often the least positive double goes into a number in parts. -/
def unitsOf : UnpackedFloat → Int
  | .finite s m e _ => s.apply (m * 2 ^ (e + 1074).toNat : Nat)
  | _ => 0

/-- How often the least positive double goes into a number, which is only told of finite ones. -/
def units (x : Float) : Int := unitsOf x.toModel.unpack

section Units

variable {u v : UnpackedFloat} {x y z : Float}

theorem cases_of_isFinite (h : u.isFinite = true) : (∃ s, u = .zero s) ∨ ∃ s m e hm, u = .finite s m e hm := by
  cases u with
  | notANumber => cases h
  | infinity s => cases h
  | zero s => exact Or.inl ⟨s, rfl⟩
  | finite s m e hm => exact Or.inr ⟨s, m, e, hm, rfl⟩

/-- What a mantissa is at a smaller exponent. -/
theorem unitsOf_aligned (s : Sign) {m : Nat} {e f : Int} (hm : 0 < m) (hf : -1074 ≤ f) (hfe : f ≤ e) :
    s.apply (m <<< (e - f).toNat : Nat) * 2 ^ (f + 1074).toNat = unitsOf (.finite s m e hm) := by
  have hpow : m <<< (e - f).toNat * 2 ^ (f + 1074).toNat = m * 2 ^ (e + 1074).toNat := by
    rw [Nat.shiftLeft_eq, Nat.mul_assoc, ← Nat.pow_add]
    congr 2
    omega
  have hcast : ((m <<< (e - f).toNat : Nat) : Int) * 2 ^ (f + 1074).toNat = (m * 2 ^ (e + 1074).toNat : Nat) := by
    rw [← hpow]
    push_cast
    rfl
  cases s with
  | negative =>
    show -((m <<< (e - f).toNat : Nat) : Int) * _ = -_
    rw [Int.neg_mul, hcast]
  | positive => exact hcast

/-- A finite number is a stored mantissa of some place; zero counts as one. -/
theorem exists_stored_unitsOf (hu : Packable u) (h : u.isFinite = true) : ∃ (s : Sign) (m k : Nat),
    Stored m (k - 1074) ∧ unitsOf u = s.apply (m * 2 ^ k : Nat) ∧ position u = s.apply (magnitude m (k - 1074)) := by
  obtain ⟨s, rfl⟩ | ⟨s, m, e, hm, rfl⟩ := cases_of_isFinite h
  · exact ⟨.positive, 0, 0, by constructor <;> decide, rfl, rfl⟩
  · have hstored := hu _ _ _ _ rfl
    have hplace : e = ((e + 1074).toNat : Int) - 1074 := by
      have := hstored.le_exponent
      omega
    refine ⟨s, m, (e + 1074).toNat, ?_, rfl, ?_⟩
    · rwa [← hplace]
    · rw [← hplace, position]

theorem exists_stored (hx : x.isFinite = true) : ∃ (s : Sign) (m k : Nat),
    Stored m (k - 1074) ∧ units x = s.apply (m * 2 ^ k : Nat) ∧ rank x = s.apply (magnitude m (k - 1074)) := by
  rw [rank_eq_position]
  exact exists_stored_unitsOf (packable_unpack x) hx

/-- Every stored mantissa is that of a number. -/
theorem exists_of_stored {m k : Nat} (s : Sign) (h : Stored m (k - 1074)) (hm : 0 < m) : ∃ x : Float,
    x.isFinite = true ∧ units x = s.apply (m * 2 ^ k : Nat) ∧ rank x = s.apply (magnitude m (k - 1074)) := by
  have hunpack := unpack_pack_finite (s := s) h hm
  refine ⟨.ofModel (.pack (.finite s m (k - 1074) hm)), ?_, ?_, ?_⟩
  · show (Float.Model.pack _).unpack.isFinite = true
    rw [hunpack]
    rfl
  · show unitsOf (Float.Model.pack _).unpack = _
    rw [hunpack, unitsOf, show ((k : Int) - 1074 + 1074).toNat = k by omega]
  · rw [rank_eq_position]
    show position (Float.Model.pack _).unpack = _
    rw [hunpack, position]

theorem rankOfUnits_apply (s : Sign) (a : Int) : rankOfUnits (s.apply a) = s.apply (rankOfUnits a) := by
  cases s with
  | negative => exact rankOfUnits_neg a
  | positive => rfl

/-- A stored mantissa is placed where it is stored. -/
theorem nearest_stored_units {m k : Nat} (h : Stored m (k - 1074)) :
    nearest (m * 2 ^ k) (-1074) = magnitude m (k - 1074) := by
  rcases Nat.eq_zero_or_pos m with rfl | hm
  · obtain rfl : k = 0 := by
      have := h.full_or_least
      omega
    rfl
  · have hself := nearest_stored h hm k
    rwa [show (k : Int) - 1074 - k = -1074 by omega] at hself

/-- Rounding gives every finite number back. -/
theorem rankOfUnits_unitsOf (hu : Packable u) (h : u.isFinite = true) : rankOfUnits (unitsOf u) = position u := by
  obtain ⟨s, m, k, hstored, hunits, hposition⟩ := exists_stored_unitsOf hu h
  rw [hunits, hposition, rankOfUnits_apply, rankOfUnits_natCast, nearest_stored_units hstored]

theorem rankOfUnits_units (hx : x.isFinite = true) : rankOfUnits (units x) = rank x :=
  (rankOfUnits_unitsOf (packable_unpack x) hx).trans (rank_eq_position x).symm

/-- The rank of a stored number of units. -/
theorem rank_of_units_eq {s : Sign} {m k : Nat} (hx : x.isFinite = true) (h : Stored m (k - 1074))
    (hunits : units x = s.apply (m * 2 ^ k : Nat)) : rank x = s.apply (magnitude m (k - 1074)) := by
  rw [← rankOfUnits_units hx, hunits, rankOfUnits_apply, rankOfUnits_natCast, nearest_stored_units h]

/-- The sum of finite numbers is rounded from the sum of their units. -/
theorem position_add (hu : Packable u) (hv : Packable v) (hfu : u.isFinite = true) (hfv : v.isFinite = true) :
    position (Float.Model.pack (UnpackedFloat.add .binary64 u v)).unpack = rankOfUnits (unitsOf u + unitsOf v) := by
  obtain ⟨s, rfl⟩ | ⟨s, m, e, hm, rfl⟩ := cases_of_isFinite hfu
  · obtain ⟨t, rfl⟩ | ⟨t, n, f, hn, rfl⟩ := cases_of_isFinite hfv
    · cases s <;> cases t <;> rfl
    · show position (Float.Model.pack (.finite t n f hn)).unpack = _
      rw [unpack_pack hv, ← rankOfUnits_unitsOf hv hfv, show unitsOf (.zero s) = 0 from rfl, Int.zero_add]
  · obtain ⟨t, rfl⟩ | ⟨t, n, f, hn, rfl⟩ := cases_of_isFinite hfv
    · show position (Float.Model.pack (.finite s m e hm)).unpack = _
      rw [unpack_pack hu, ← rankOfUnits_unitsOf hu hfu, show unitsOf (.zero t) = 0 from rfl, Int.add_zero]
    · have he := (hu _ _ _ _ rfl).le_exponent
      have hf := (hv _ _ _ _ rfl).le_exponent
      show position (Float.Model.pack (UnpackedFloat.normalize .binary64
        (s.apply (m <<< (e - min e f).toNat : Nat) + t.apply (n <<< (f - min e f).toNat : Nat)) (min e f) _)).unpack = _
      rw [position_normalize (by omega), Int.add_mul, unitsOf_aligned s hm (by omega) (by omega),
        unitsOf_aligned t hn (by omega) (by omega)]

/-- Addition adds units and rounds. -/
theorem rank_add (hx : x.isFinite = true) (hy : y.isFinite = true) : rank (x + y) = rankOfUnits (units x + units y) :=
  (rank_add_eq x y).trans (position_add (packable_unpack x) (packable_unpack y) hx hy)

theorem Packable.abs (hu : Packable u) : Packable u.abs := by
  intro s m e hm h
  cases u with
  | finite t n f hn =>
    cases h
    exact hu _ _ _ _ rfl
  | _ => cases h

theorem Packable.neg (hu : Packable u) : Packable u.neg := by
  intro s m e hm h
  cases u with
  | finite t n f hn =>
    cases h
    exact hu _ _ _ _ rfl
  | _ => cases h

theorem unitsOf_neg (u : UnpackedFloat) : unitsOf u.neg = -unitsOf u := by
  cases u with
  | finite s m e hm => cases s <;> simp [UnpackedFloat.neg, unitsOf, Sign.apply]
  | _ => rfl

/-- The difference of finite numbers is rounded from the difference of their units. -/
theorem position_sub (hu : Packable u) (hv : Packable v) (hfu : u.isFinite = true) (hfv : v.isFinite = true) :
    position (Float.Model.pack (UnpackedFloat.sub .binary64 u v)).unpack = rankOfUnits (unitsOf u - unitsOf v) := by
  obtain ⟨s, rfl⟩ | ⟨s, m, e, hm, rfl⟩ := cases_of_isFinite hfu
  · obtain ⟨t, rfl⟩ | ⟨t, n, f, hn, rfl⟩ := cases_of_isFinite hfv
    · cases s <;> cases t <;> rfl
    · have hneg : Packable (UnpackedFloat.neg (.finite t n f hn)) := hv.neg
      show position (Float.Model.pack (UnpackedFloat.neg (.finite t n f hn))).unpack = _
      rw [unpack_pack hneg, ← rankOfUnits_unitsOf hneg rfl, unitsOf_neg, show unitsOf (.zero s) = 0 from rfl,
        Int.zero_sub]
  · obtain ⟨t, rfl⟩ | ⟨t, n, f, hn, rfl⟩ := cases_of_isFinite hfv
    · show position (Float.Model.pack (.finite s m e hm)).unpack = _
      rw [unpack_pack hu, ← rankOfUnits_unitsOf hu hfu, show unitsOf (.zero t) = 0 from rfl, Int.sub_zero]
    · have he := (hu _ _ _ _ rfl).le_exponent
      have hf := (hv _ _ _ _ rfl).le_exponent
      show position (Float.Model.pack (UnpackedFloat.normalize .binary64
        (s.apply (m <<< (e - min e f).toNat : Nat) - t.apply (n <<< (f - min e f).toNat : Nat)) (min e f) _)).unpack = _
      rw [position_normalize (by omega), Int.sub_mul, unitsOf_aligned s hm (by omega) (by omega),
        unitsOf_aligned t hn (by omega) (by omega)]

/-- Subtraction subtracts units and rounds. -/
theorem rank_sub (hx : x.isFinite = true) (hy : y.isFinite = true) : rank (x - y) = rankOfUnits (units x - units y) :=
  (rank_eq_position _).trans (position_sub (packable_unpack x) (packable_unpack y) hx hy)

/-- Mantissa and place can be read off the position. -/
theorem Stored.eq_of_magnitude_eq {m n : Nat} {e f : Int} (h : Stored m e) (h' : Stored n f)
    (heq : magnitude m e = magnitude n f) : m = n ∧ e = f := by
  have hcompare := h.compare_magnitude h'
  rw [Int.compare_eq_eq.mpr heq, Ordering.then_eq_eq, Int.compare_eq_eq, Nat.compare_eq_eq] at hcompare
  exact hcompare.symm

/-- Numbers of one rank are the same number of units. -/
theorem units_eq_of_rank_eq (hx : x.isFinite = true) (hy : y.isFinite = true) (h : rank x = rank y) :
    units x = units y := by
  obtain ⟨s, m, k, hm, hxunits, hxrank⟩ := exists_stored hx
  obtain ⟨t, n, l, hn, hyunits, hyrank⟩ := exists_stored hy
  have hinj := hm.eq_of_magnitude_eq hn
  have hzero : magnitude m (k - 1074) = -magnitude n (l - 1074) → m = 0 ∧ n = 0 := by
    unfold magnitude
    omega
  rw [hxrank, hyrank] at h
  rw [hxunits, hyunits]
  cases s <;> cases t <;> simp only [Sign.apply] at h ⊢
  case negative.negative =>
    obtain ⟨rfl, hk⟩ := hinj (Int.neg_inj.mp h)
    rw [show k = l by omega]
  case positive.positive =>
    obtain ⟨rfl, hk⟩ := hinj h
    rw [show k = l by omega]
  case negative.positive =>
    obtain ⟨rfl, rfl⟩ := hzero (by omega)
    simp
  case positive.negative =>
    obtain ⟨rfl, rfl⟩ := hzero h
    simp

/-- Finite numbers are in the order of their units. -/
theorem units_le_iff (hx : x.isFinite = true) (hy : y.isFinite = true) : units x ≤ units y ↔ rank x ≤ rank y := by
  have heq := units_eq_of_rank_eq hx hy
  rw [← rankOfUnits_units hx, ← rankOfUnits_units hy] at heq ⊢
  refine ⟨rankOfUnits_mono, fun hle => ?_⟩
  by_contra hlt
  have hge := rankOfUnits_mono (Int.le_of_lt (Int.not_le.mp hlt))
  exact hlt (Int.le_of_eq (heq (Int.le_antisymm hle hge)))

theorem natAbs_apply (s : Sign) (a : Nat) : (s.apply a).natAbs = a := by
  cases s <;> simp [Sign.apply]

/-! ## Finite numbers -/

theorem isNaN_of_isFinite (hx : x.isFinite = true) : x.isNaN = false := by
  show x.toModel.unpack.isNaN = false
  obtain ⟨s, hu⟩ | ⟨s, m, e, hm, hu⟩ := cases_of_isFinite hx <;> rw [hu] <;> rfl

/-- The finite numbers are those between the infinities. -/
theorem isFinite_iff_rank (hx : x.isNaN = false) : x.isFinite = true ↔ -topRank < rank x ∧ rank x < topRank := by
  constructor
  · intro hfin
    obtain ⟨s, m, k, hm, -, hrank⟩ := exists_stored hfin
    have hlt := hm.magnitude_lt
    have hnonneg : 0 ≤ magnitude m (k - 1074) := by
      unfold magnitude
      omega
    rw [hrank]
    cases s <;> simp only [Sign.apply] <;> omega
  · rw [rank_eq_position]
    change x.toModel.unpack.isNaN = false at hx
    show _ → x.toModel.unpack.isFinite = true
    cases hu : x.toModel.unpack with
    | notANumber => rw [hu] at hx; cases hx
    | infinity s => cases s <;> exact fun h => absurd h (by decide)
    | zero s => exact fun _ => rfl
    | finite s m e hm => exact fun _ => rfl

theorem units_mono (hx : x.isFinite = true) (hy : y.isFinite = true) (h : x ≤ y) : units x ≤ units y :=
  (units_le_iff hx hy).mpr ((le_iff_rank (isNaN_of_isFinite hx) (isNaN_of_isFinite hy)).mp h)

theorem units_strictMono (hx : x.isFinite = true) (hy : y.isFinite = true) (h : x < y) : units x < units y := by
  rw [lt_iff_rank (isNaN_of_isFinite hx) (isNaN_of_isFinite hy)] at h
  rw [← Int.not_le, units_le_iff hy hx]
  omega

theorem isFinite_of_le_of_le (hx : x.isFinite = true) (hz : z.isFinite = true) (hxy : x ≤ y) (hyz : y ≤ z) :
    y.isFinite = true := by
  obtain ⟨hxnan, hynan⟩ := isNaN_of_le hxy
  have hznan := (isNaN_of_le hyz).2
  rw [le_iff_rank hxnan hynan] at hxy
  rw [le_iff_rank hynan hznan] at hyz
  rw [isFinite_iff_rank hxnan] at hx
  rw [isFinite_iff_rank hznan] at hz
  rw [isFinite_iff_rank hynan]
  omega

theorem isNaN_add_of_isFinite (hx : x.isFinite = true) (hy : y.isFinite = true) : (x + y).isNaN = false := by
  rw [isNaN_add_eq]
  obtain ⟨s, hu⟩ | ⟨s, m, e, hm, hu⟩ := cases_of_isFinite hx <;>
    obtain ⟨t, hv⟩ | ⟨t, n, f, hn, hv⟩ := cases_of_isFinite hy <;> rw [hu, hv]
  · cases s <;> cases t <;> rfl
  · rfl
  · rfl
  · exact isNaN_normalize ..

theorem unpack_abs (x : Float) : x.abs.toModel.unpack = x.toModel.unpack.abs := unpack_pack (packable_unpack x).abs

theorem unpack_neg (x : Float) : (-x).toModel.unpack = x.toModel.unpack.neg := unpack_pack (packable_unpack x).neg

theorem rank_neg (x : Float) : rank (-x) = -rank x := by
  rw [rank_eq_position, rank_eq_position, unpack_neg]
  cases x.toModel.unpack with
  | notANumber => rfl
  | infinity s => cases s <;> rfl
  | zero s => rfl
  | finite s m e hm =>
    cases s with
    | negative => exact (Int.neg_neg _).symm
    | positive => rfl

theorem isFinite_abs (hx : x.isFinite = true) : x.abs.isFinite = true := by
  show x.abs.toModel.unpack.isFinite = true
  rw [unpack_abs]
  obtain ⟨s, hu⟩ | ⟨s, m, e, hm, hu⟩ := cases_of_isFinite hx <;> rw [hu] <;> rfl

theorem units_abs (hx : x.isFinite = true) : units x.abs = (units x).natAbs := by
  unfold units
  rw [unpack_abs]
  obtain ⟨s, hu⟩ | ⟨s, m, e, hm, hu⟩ := cases_of_isFinite hx <;> rw [hu]
  · rfl
  · cases s <;> simp [UnpackedFloat.abs, unitsOf, Sign.apply]

theorem isFinite_of_units_ne_zero (h : units x ≠ 0) : x.isFinite = true := by
  show x.toModel.unpack.isFinite = true
  unfold units at h
  cases hu : x.toModel.unpack with
  | notANumber => rw [hu] at h; exact absurd rfl h
  | infinity s => rw [hu] at h; exact absurd rfl h
  | zero s => rfl
  | finite s m e hm => rfl

/-- Only a finite number fails to move a finite one. -/
theorem isFinite_of_add_beq (hx : x.isFinite = true) (h : (x + y == x) = true) : y.isFinite = true := by
  obtain ⟨hsum, hxnan⟩ := isNaN_of_compare (beq_iff_compare.mp h)
  rw [beq_iff_rank hsum hxnan, rank_add_eq] at h
  obtain ⟨hlow, hhigh⟩ := (isFinite_iff_rank hxnan).mp hx
  rw [isNaN_add_eq] at hsum
  show y.toModel.unpack.isFinite = true
  obtain ⟨s, hu⟩ | ⟨s, m, e, hm, hu⟩ := cases_of_isFinite hx <;> rw [hu] at h hsum <;>
    cases hv : y.toModel.unpack with
    | notANumber => rw [hv] at hsum; cases hsum
    | infinity t =>
      rw [hv] at h
      change position (Float.Model.pack (.infinity t)).unpack = _ at h
      rw [unpack_pack (fun _ _ _ _ h => by cases h), position] at h
      cases t <;> simp only [Sign.apply] at h <;> omega
    | zero t => rfl
    | finite t n f hn => rfl

/-! ## Monotone addition -/

/-- Adding what is not negative leads to a number at least as large. -/
theorem le_add (hy : 0 ≤ rank y) (h : (x + y).isNaN = false) : x ≤ x + y :=
  (le_iff_rank (isNaN_left_of_add h) h).mpr (rank_le_add hy h)

/-- Adding the same number to both sides keeps the order. -/
theorem add_le_add_right (hx : x.isFinite = true) (hy : y.isFinite = true) (hz : z.isFinite = true) (h : x ≤ y) :
    x + z ≤ y + z := by
  rw [le_iff_rank (isNaN_of_isFinite hx) (isNaN_of_isFinite hy), ← units_le_iff hx hy] at h
  rw [le_iff_rank (isNaN_add_of_isFinite hx hz) (isNaN_add_of_isFinite hy hz), rank_add hx hz, rank_add hy hz]
  exact rankOfUnits_mono (by omega)

/-- What does not move a number does not lead past it. -/
theorem add_le_of_add_beq (hx : x.isFinite = true) (hy : y.isFinite = true) (hz : z.isFinite = true) (h : x ≤ y)
    (hsame : (y + z == y) = true) : x + z ≤ y := by
  have hle := add_le_add_right hx hy hz h
  obtain ⟨hl, hr⟩ := isNaN_of_le hle
  rw [beq_iff_rank hr (isNaN_of_isFinite hy)] at hsame
  rw [le_iff_rank hl hr, hsame] at hle
  exact (le_iff_rank hl (isNaN_of_isFinite hy)).mpr hle

end Units

end Number
end ParetoSweep
