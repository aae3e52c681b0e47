import ParetoSweep.Proofs.Number.Error
import ParetoSweep.Proofs.Number.Integers

/-!
# Quotients and whole parts

The quotient of two mantissas is taken at an exponent where it has enough binary digits (`le_lastPlace_div`), and is
then rounded like any other number (`exists_cut`). So a quotient of doubles has a relative error of at most `2⁻⁵³`, or
it is so small that its last place is the least one (`rounded_div`). The largest whole number that is not above a double
is a double (`units_floor`), and a machine word holds it below `2 ^ 64` (`toNat_toUInt64`).
-/

namespace ParetoSweep
namespace Number

open Float.Model (UnpackedFloat)
open Float.Model.UnpackedFloat

/-! ## Rounded quotients -/

/-- A whole number `q` is a rounded quotient of `a` by `c`: it has a relative error of at most `2⁻⁵³`, or it is small
and at most one half away. -/
def RoundedQuotient (q a c : Int) : Prop :=
  0 ≤ q ∧ (9007199254740992 * (q * c - a).natAbs ≤ a ∨ q ≤ 9007199254740992 ∧ 2 * (q * c - a).natAbs ≤ c)

/-- The whole part of a rounded quotient is off by at most the relative error. -/
theorem RoundedQuotient.whole_bounds {q a c scale : Int} (h : RoundedQuotient q (a * scale) c) (ha : 0 ≤ a) (hc : 0 < c)
    (hscale : 18014398509481985 < scale) :
    9007199254740992 * (q / scale * c) ≤ 9007199254740993 * a ∧
      9007199254740991 * a < 9007199254740992 * ((q / scale + 1) * c) := by
  obtain ⟨hnonneg, herror⟩ := h
  have hpos : 0 < scale := by omega
  have hlow := Int.ediv_mul_le q hpos.ne'
  have hhigh := Int.lt_ediv_add_one_mul_self q hpos
  rcases herror with hrel | ⟨hsmall, habs⟩
  · have hle : 9007199254740992 * (q * c) ≤ 9007199254740993 * (a * scale) := by omega
    have hge : 9007199254740991 * (a * scale) ≤ 9007199254740992 * (q * c) := by omega
    constructor
    · refine le_of_mul_le_mul_right ?_ hpos
      calc 9007199254740992 * (q / scale * c) * scale = 9007199254740992 * (q / scale * scale * c) := by ring
        _ ≤ 9007199254740992 * (q * c) := by gcongr
        _ ≤ 9007199254740993 * a * scale := by rwa [Int.mul_assoc]
    · refine lt_of_mul_lt_mul_right ?_ hpos.le
      calc 9007199254740991 * a * scale ≤ 9007199254740992 * (q * c) := by rwa [Int.mul_assoc]
        _ < 9007199254740992 * ((q / scale + 1) * scale * c) := by gcongr
        _ = 9007199254740992 * ((q / scale + 1) * c) * scale := by ring
  · -- A small quotient has no whole part, so only `a < c` is left to show.
    have hzero : q / scale = 0 := Int.ediv_eq_zero_of_lt hnonneg (by omega)
    have hlt : a < c := by
      by_contra hge
      have hqc : q * c ≤ 9007199254740992 * c := by gcongr
      have hac : c * scale ≤ a * scale := by gcongr; omega
      have hcs : 18014398509481985 * c < scale * c := by gcongr
      rw [Int.mul_comm scale] at hcs
      omega
    rw [hzero]
    omega

/-! ## Division -/

section Division

variable {x y : Float} {m n : Nat} {e f : Int}

/-- The exponent that the quotient of two mantissas is taken at. -/
def quotientPlace (m n : Nat) (e f : Int) : Int := min (e - f) (max (m.log2 + 1 + e - (n.log2 + 1 + f) - 53) (-1074))

/-- The mantissa that is divided at this exponent. -/
def dividend (m n : Nat) (e f : Int) : Nat := m * 2 ^ (e - f - quotientPlace m n e f).toNat

theorem divCore_eq (m n : Nat) (e f : Int) : divCore .binary64 m e n f =
    (dividend m n e f / n, quotientPlace m n e f, accuracyOfFraction (dividend m n e f % n) n) := by
  unfold divCore dividend
  rw [← Nat.shiftLeft_eq]
  rfl

/-- There the quotient has all digits that a double near it has. -/
theorem le_lastPlace_div (hm : 0 < m) (hn : 0 < n) :
    quotientPlace m n e f ≤ lastPlace (dividend m n e f / n) (quotientPlace m n e f) := by
  by_cases hleast : quotientPlace m n e f ≤ -1074
  · exact Int.le_trans hleast (lastPlace_ge ..).1
  · -- Above the least exponent the dividend is shifted until its quotient has at least 53 binary digits.
    have hdigits : 52 ≤ (dividend m n e f / n).log2 := by
      have hpow : 4503599627370496 * n ≤ dividend m n e f := by
        calc 4503599627370496 * n
            ≤ 2 ^ 52 * 2 ^ (n.log2 + 1) := Nat.mul_le_mul_left _ (Nat.le_of_lt Nat.lt_log2_self)
          _ = 2 ^ (52 + (n.log2 + 1)) := (Nat.pow_add ..).symm
          _ ≤ 2 ^ (m.log2 + (e - f - quotientPlace m n e f).toNat) :=
            Nat.pow_le_pow_right (by decide) (by unfold quotientPlace at *; omega)
          _ = 2 ^ m.log2 * 2 ^ (e - f - quotientPlace m n e f).toNat := Nat.pow_add ..
          _ ≤ dividend m n e f := Nat.mul_le_mul_right _ (Nat.log2_self_le (by omega))
      have hquot := (Nat.le_div_iff_mul_le hn).mpr hpow
      exact (Nat.le_log2 (by omega)).mpr hquot
    have := (lastPlace_ge (dividend m n e f / n) (quotientPlace m n e f)).2
    omega

/-- A positive number in parts. -/
theorem exists_unpack_eq (h : 0 < units x) : ∃ m e hm, x.toModel.unpack = .finite .positive m e hm := by
  unfold units at h
  cases hu : x.toModel.unpack with
  | finite s m e hm =>
    cases s with
    | positive => exact ⟨m, e, hm, rfl⟩
    | negative =>
      rw [hu] at h
      simp only [unitsOf, Sign.apply] at h
      omega
  | _ =>
    rw [hu] at h
    exact absurd h (Int.lt_irrefl 0)

/-- The position of a quotient of positive numbers. -/
theorem rank_div {hm : 0 < m} {hn : 0 < n} (hx : x.toModel.unpack = .finite .positive m e hm)
    (hy : y.toModel.unpack = .finite .positive n f hn) :
    rank (x / y) = min (magnitude (cutQuotient (dividend m n e f) n (quotientPlace m n e f))
      (lastPlace (dividend m n e f / n) (quotientPlace m n e f))) topRank := by
  rw [rank_eq_position]
  show position (Float.Model.pack (UnpackedFloat.div .binary64 x.toModel.unpack y.toModel.unpack)).unpack = _
  rw [hx, hy]
  show position (Float.Model.pack (match divCore .binary64 m e n f with
    | (q, t, a) => roundWithAccuracy .binary64 .positive q t a)).unpack = _
  rw [divCore_eq]
  exact position_of_keeps .positive (keeps_fraction _ hn) hn (le_lastPlace_div hm hn)

theorem mul_pow_eq {a b c i j k : Nat} (h : a + b + c = i + j + k) :
    m * 2 ^ a * (n * 2 ^ b) * 2 ^ c = m * 2 ^ i * 2 ^ j * (n * 2 ^ k) := by
  calc m * 2 ^ a * (n * 2 ^ b) * 2 ^ c = m * n * 2 ^ (a + b + c) := by
        rw [Nat.pow_add, Nat.pow_add]
        ac_rfl
    _ = m * 2 ^ i * 2 ^ j * (n * 2 ^ k) := by
        rw [h, Nat.pow_add, Nat.pow_add]
        ac_rfl

/-- The quotient of positive numbers is a rounded quotient of units, which has 53 binary digits before it is rounded
unless its place is the least one. -/
theorem exists_cut (px : 0 < units x) (py : 0 < units y) (h : (x / y).isFinite = true) : ∃ q d k : Nat,
    0 < d ∧ q * units y * 2 ^ k = units x * 2 ^ 1074 * d ∧ units (x / y) = (quotientToEven q d * 2 ^ k : Nat) ∧
      (4503599627370496 * d ≤ q ∨ k = 0 ∧ quotientToEven q d ≤ 9007199254740992) := by
  obtain ⟨m, e, hm, hx⟩ := exists_unpack_eq px
  obtain ⟨n, f, hn, hy⟩ := exists_unpack_eq py
  have he := (stored_of_unpack hx).le_exponent
  have hf := (stored_of_unpack hy).le_exponent
  have hrank := rank_div hx hy
  have hplace := le_lastPlace_div (e := e) (f := f) hm hn
  have hle := cutQuotient_le (dividend m n e f) n (quotientPlace m n e f)
  have hfull := full_or_least_cutQuotient hplace
  have hcut := le_cut hplace
  have htarget : quotientPlace m n e f ≤ e - f := Int.min_le_left ..
  obtain ⟨k, hk⟩ : ∃ k : Nat, lastPlace (dividend m n e f / n) (quotientPlace m n e f) = k - 1074 := by
    have := (lastPlace_ge (dividend m n e f / n) (quotientPlace m n e f)).1
    exact ⟨(lastPlace (dividend m n e f / n) (quotientPlace m n e f) + 1074).toNat, by omega⟩
  rw [cutQuotient, hk] at hrank hle hfull
  rw [hk] at hcut hplace
  have hd : 0 < n * 2 ^ (k - 1074 - quotientPlace m n e f).toNat := Nat.mul_pos hn (Nat.two_pow_pos _)
  refine ⟨dividend m n e f, _, k, hd, ?_, units_of_rounded (s := .positive) h hle (by omega) hrank, ?_⟩
  · have hexact := mul_pow_eq (m := m) (n := n) (show (e - f - quotientPlace m n e f).toNat + (f + 1074).toNat + k
      = (e + 1074).toNat + 1074 + (k - 1074 - quotientPlace m n e f).toNat by omega)
    rw [units, units, hx, hy]
    show ((m * 2 ^ _ : Nat) : Int) * (n * 2 ^ _ : Nat) * 2 ^ k = (m * 2 ^ _ : Nat) * 2 ^ 1074 * (n * 2 ^ _ : Nat)
    generalize (k - 1074 - quotientPlace m n e f).toNat = l at hexact ⊢
    exact_mod_cast hexact
  · rcases Nat.eq_zero_or_pos k with hzero | hpos
    · exact Or.inr ⟨hzero, hle⟩
    · exact Or.inl ((Nat.le_div_iff_mul_le hd).mp (hcut (by omega)))

/-- A rounded quotient times a power of two is at most half of that power away from the exact one. -/
theorem error_mul_pow {q d k a c : Nat} (hd : 0 < d) (h : q * c * 2 ^ k = a * d) :
    2 * a ≤ 2 * (quotientToEven q d * 2 ^ k * c) + c * 2 ^ k ∧
      2 * (quotientToEven q d * 2 ^ k * c) ≤ 2 * a + c * 2 ^ k := by
  obtain ⟨hlow, hhigh⟩ := error_quotientToEven q hd
  constructor
  · refine Nat.le_of_mul_le_mul_right ?_ hd
    calc 2 * a * d = 2 * q * (c * 2 ^ k) := by
          rw [Nat.mul_assoc, ← h]
          ac_rfl
      _ ≤ (2 * (quotientToEven q d * d) + d) * (c * 2 ^ k) := Nat.mul_le_mul_right _ hlow
      _ = _ := by ring
  · refine Nat.le_of_mul_le_mul_right ?_ hd
    calc 2 * (quotientToEven q d * 2 ^ k * c) * d = 2 * (quotientToEven q d * d) * (c * 2 ^ k) := by ring
      _ ≤ (2 * q + d) * (c * 2 ^ k) := Nat.mul_le_mul_right _ hhigh
      _ = 2 * (q * c * 2 ^ k) + d * (c * 2 ^ k) := by ring
      _ = _ := by
        rw [h]
        ring

/-- A quotient of positive numbers is a rounded quotient of their units. -/
theorem rounded_div_pos (px : 0 < units x) (py : 0 < units y) (h : (x / y).isFinite = true) :
    RoundedQuotient (units (x / y)) (units x * 2 ^ 1074) (units y) := by
  obtain ⟨q, d, k, hd, hexact, hunits, hplace⟩ := exists_cut px py h
  obtain ⟨a, ha⟩ : ∃ a : Nat, units x * 2 ^ 1074 = a :=
    ⟨_, (Int.toNat_of_nonneg (Int.mul_nonneg px.le (Int.pow_nonneg (by decide)))).symm⟩
  obtain ⟨c, hc⟩ : ∃ c : Nat, units y = c := ⟨_, (Int.toNat_of_nonneg py.le).symm⟩
  rw [ha, hc] at hexact ⊢
  have hexact' : q * c * 2 ^ k = a * d := by exact_mod_cast hexact
  obtain ⟨hlow, hhigh⟩ := error_mul_pow hd hexact'
  rw [hunits]
  refine ⟨Int.natCast_nonneg _, ?_⟩
  rw [← Nat.cast_mul]
  rcases hplace with hfull | ⟨rfl, hsmall⟩
  · have hplace : 4503599627370496 * (c * 2 ^ k) ≤ a := by
      refine Nat.le_of_mul_le_mul_right ?_ hd
      calc 4503599627370496 * (c * 2 ^ k) * d = 4503599627370496 * d * (c * 2 ^ k) := by ring
        _ ≤ q * (c * 2 ^ k) := Nat.mul_le_mul_right _ hfull
        _ = a * d := by rw [← hexact', Nat.mul_assoc]
    left
    omega
  · rw [Nat.pow_zero, Nat.mul_one] at hlow hhigh ⊢
    right
    omega

/-- The same for dividends that may be zero. -/
theorem rounded_div (hx : x.isFinite = true) (px : 0 ≤ units x) (py : 0 < units y) (h : (x / y).isFinite = true) :
    RoundedQuotient (units (x / y)) (units x * 2 ^ 1074) (units y) := by
  rcases Int.lt_or_eq_of_le px with hpos | hzero
  · exact rounded_div_pos hpos py h
  · obtain ⟨n, f, hn, hy⟩ := exists_unpack_eq py
    have hquot : units (x / y) = 0 := by
      obtain ⟨s, hu⟩ | ⟨s, m, e, hm, hu⟩ := cases_of_isFinite hx
      · show unitsOf (Float.Model.pack (UnpackedFloat.div .binary64 x.toModel.unpack y.toModel.unpack)).unpack = 0
        rw [hu, hy]
        show unitsOf (Float.Model.pack (.zero (s / .positive))).unpack = 0
        rw [unpack_pack (fun _ _ _ _ h => by cases h)]
        rfl
      · have hpos : 0 < m * 2 ^ (e + 1074).toNat := Nat.mul_pos hm (Nat.two_pow_pos _)
        unfold units at hzero
        rw [hu, unitsOf] at hzero
        cases s <;> simp only [Sign.apply] at hzero <;> omega
    rw [RoundedQuotient, hquot, ← hzero, Int.zero_mul, Int.zero_mul]
    exact ⟨Int.le_refl 0, Or.inl (Int.le_refl 0)⟩

/-- A quotient by a positive number is only finite if the dividend is. -/
theorem isFinite_left_of_div (py : 0 < units y) (h : (x / y).isFinite = true) : x.isFinite = true := by
  obtain ⟨n, f, hn, hy⟩ := exists_unpack_eq py
  change (Float.Model.pack (UnpackedFloat.div .binary64 x.toModel.unpack y.toModel.unpack)).unpack.isFinite = true at h
  show x.toModel.unpack.isFinite = true
  rw [hy] at h
  cases hu : x.toModel.unpack with
  | finite s m e hm => rfl
  | zero s => rfl
  | infinity s =>
    rw [hu] at h
    change (Float.Model.pack (.infinity (s / .positive))).unpack.isFinite = true at h
    rw [unpack_pack (fun _ _ _ _ h => by cases h)] at h
    cases h
  | notANumber =>
    rw [hu] at h
    change (Float.Model.pack .notANumber).unpack.isFinite = true at h
    rw [unpack_pack (fun _ _ _ _ h => by cases h)] at h
    cases h

end Division

/-! ## Whole parts -/

section Whole

variable {x : Float}

theorem units_eq_zero {s : Sign} (hu : x.toModel.unpack = .zero s) : units x = 0 := by
  unfold units
  rw [hu]
  rfl

theorem apply_mul (s : Sign) (m n : Nat) : s.apply (m * n : Nat) = s.apply m * n := by
  cases s <;> simp [Sign.apply]

/-- Infinities and what is not a number have no other number below them. -/
theorem isFinite_of_floor (h : (floor x).isFinite = true) : x.isFinite = true := by
  by_contra hx
  have hsame : floor x = x := by
    unfold floor
    split
    case h_1 s m e hm hu =>
      exact absurd (show x.toModel.unpack.isFinite = true by rw [hu]; rfl) hx
    case h_2 => rfl
  exact hx (hsame ▸ h)

/-- The whole part of a number is the shifted mantissa. -/
theorem units_ediv {s : Sign} {m : Nat} {e : Int} {hm : 0 < m} (hu : x.toModel.unpack = .finite s m e hm) :
    units x / 2 ^ 1074 = s.apply m * 2 ^ e.toNat / 2 ^ (-e).toNat := by
  have hleast := (stored_of_unpack hu).le_exponent
  have hunits : units x = s.apply m * 2 ^ (e + 1074).toNat := by
    rw [units, hu, unitsOf, apply_mul, Nat.cast_pow, Nat.cast_ofNat]
  have hpow : (2 : Int) ^ (e + 1074).toNat * 2 ^ (-e).toNat = 2 ^ e.toNat * 2 ^ 1074 := by
    rw [← pow_add, ← pow_add]
    congr 1
    omega
  rw [← Int.mul_ediv_mul_of_pos_left _ _ (show (0 : Int) < 2 ^ (-e).toNat by positivity), hunits, Int.mul_assoc, hpow,
    ← Int.mul_assoc, Int.mul_comm (2 ^ 1074), Int.mul_ediv_mul_of_pos_left _ _ (by positivity)]

/-- The largest whole number that is not above a finite one is a double. -/
theorem units_floor (hx : x.isFinite = true) :
    (floor x).isFinite = true ∧ units (floor x) = units x / 2 ^ 1074 * 2 ^ 1074 := by
  obtain ⟨s, hu⟩ | ⟨s, m, e, hm, hu⟩ := cases_of_isFinite hx
  · have hfloor : floor x = x := by rw [floor, hu]
    have hzero := units_eq_zero hu
    rw [hfloor, hzero, Int.zero_ediv, Int.zero_mul]
    exact ⟨hx, rfl⟩
  · have hwhole := units_ediv hu
    by_cases he : e < 0
    · have hfloor : floor x = scaled (s.apply m >>> (-e).toNat) 0 s := by
        rw [floor, hu]
        exact if_pos he
      rw [show e.toNat = 0 by omega, Int.pow_zero, Int.mul_one] at hwhole
      have hsmall : (s.apply m / 2 ^ (-e).toNat).natAbs ≤ 9007199254740992 := by
        have hle := Int.natAbs_ediv_le_natAbs (s.apply m) (2 ^ (-e).toNat)
        rw [natAbs_apply] at hle
        have := (stored_of_unpack hu).mantissa_lt
        omega
      rw [hfloor, hwhole]
      refine units_of_rank_whole hsmall (by decide) ?_ ?_
      · exact (isNaN_pack _).trans (isNaN_normalize ..)
      · rw [rank_eq_position]
        show position (Float.Model.pack (UnpackedFloat.normalize .binary64 _ 0 s)).unpack = _
        rw [position_normalize (by decide), Int.shiftRight_eq_div_pow, Nat.cast_pow, Nat.cast_ofNat]
        rfl
    · have hfloor : floor x = x := by
        rw [floor, hu]
        exact if_neg he
      have hunits : units x = s.apply m * 2 ^ e.toNat * 2 ^ 1074 := by
        rw [units, hu, unitsOf, apply_mul, Int.mul_assoc, ← pow_add, show e.toNat + 1074 = (e + 1074).toNat by omega,
          Nat.cast_pow, Nat.cast_ofNat]
      rw [hfloor, hunits, Int.mul_ediv_cancel _ (by positivity)]
      exact ⟨hx, rfl⟩

theorem roundToInt_eq (s : Sign) (m : Nat) (e : Int) :
    roundToInt s m e = s.apply (m * 2 ^ e.toNat / 2 ^ (-e).toNat : Nat) := by
  have hshift := ((keeps_exact (m <<< (e - 0).toNat)).shiftRight Nat.one_pos (0 - (e - (e - 0).toNat)).toNat).whole
  unfold roundToInt decreaseExponent shiftToExponent
  dsimp only
  rw [hshift, Nat.one_mul, Nat.shiftLeft_eq, Int.sub_zero, show (0 - (e - (e.toNat : Int))).toNat = (-e).toNat by omega]

/-- A machine word holds the whole part of a number that is not negative and below `2 ^ 64`. -/
theorem toNat_toUInt64 (hx : x.isFinite = true) (hlow : 0 ≤ units x)
    (hhigh : units x < 18446744073709551616 * 2 ^ 1074) : (x.toUInt64.toNat : Int) = units x / 2 ^ 1074 := by
  have hword : x.toUInt64 = UInt64.ofNatClamp (UnpackedFloat.toInt 0 (UInt64.size - 1) x.toModel.unpack).toNat := rfl
  have hbelow : units x / 2 ^ 1074 < 18446744073709551616 := Int.ediv_lt_of_lt_mul (by positivity) hhigh
  have hnonneg : 0 ≤ units x / 2 ^ 1074 := Int.ediv_nonneg hlow (by positivity)
  have hwhole : UnpackedFloat.toInt 0 (UInt64.size - 1) x.toModel.unpack = units x / 2 ^ 1074 := by
    obtain ⟨s, hu⟩ | ⟨s, m, e, hm, hu⟩ := cases_of_isFinite hx
    · have hzero := units_eq_zero hu
      rw [hzero, Int.zero_ediv, hu]
      rfl
    · rw [units_ediv hu, hu]
      cases s with
      | positive => exact_mod_cast roundToInt_eq .positive m e
      | negative =>
        have hpos : 0 < m * 2 ^ (e + 1074).toNat := Nat.mul_pos hm (Nat.two_pow_pos _)
        rw [units, hu, unitsOf, Sign.apply] at hlow
        exact absurd hlow (Int.not_le.mpr (Int.neg_neg_of_pos (Int.natCast_pos.mpr hpos)))
  have hfit : (units x / 2 ^ 1074).toNat < UInt64.size := (Int.toNat_lt hnonneg).mpr hbelow
  rw [hword, hwhole, UInt64.toNat_ofNatClamp_of_lt hfit, Int.toNat_of_nonneg hnonneg]

/-- The whole part of a quotient is off by at most the relative error of the quotient. -/
theorem whole_div_bounds {y : Float} (hx : x.isFinite = true) (px : 0 ≤ units x) (py : 0 < units y)
    (h : (x / y).isFinite = true) : 0 ≤ units (x / y) ∧
      9007199254740992 * (units (x / y) / 2 ^ 1074 * units y) ≤ 9007199254740993 * units x ∧
      9007199254740991 * units x < 9007199254740992 * ((units (x / y) / 2 ^ 1074 + 1) * units y) := by
  have hscale : (18014398509481985 : Int) < 2 ^ 1074 := calc
    (18014398509481985 : Int) < 2 ^ 55 := by norm_num
    _ ≤ 2 ^ 1074 := pow_le_pow_right₀ (by norm_num) (by norm_num)
  have hrounded := rounded_div hx px py h
  exact ⟨hrounded.1, hrounded.whole_bounds px py hscale⟩

end Whole

end Number
end ParetoSweep
