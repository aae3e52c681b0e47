import ParetoSweep.Proofs.Number.Quotient

/-!
# Arithmetic that needs no rounding

Multiples of one power of two are doubles as long as they have at most 53 binary digits before it (`exists_units_eq`).
So sums, differences and products are exact where their results are such multiples (`units_add_exact`,
`units_sub_exact`, `units_mul_exact`). A quotient of two of them need not be one; but it is rounded to no less than the
doubles below it (`units_le_div`) and is too far from the next whole number to be rounded up to it, so its whole part is
exact (`units_div_whole`).
-/

namespace ParetoSweep
namespace Number

open Float.Model (UnpackedFloat)
open Float.Model.UnpackedFloat

/-! ## Products -/

section Products

variable {u v : UnpackedFloat} {x y : Float} {m n : Nat} {e f a : Int}

/-- The product of two mantissas is taken at an exponent that is not beyond its last place. -/
theorem le_lastPlace_mul (hm : Stored m e) (hn : Stored n f) (hm0 : 0 < m) (hn0 : 0 < n) :
    e + f ≤ lastPlace (m * n) (e + f) := by
  have hplace := lastPlace_ge (m * n) (e + f)
  have hlog : 4503599627370496 ≤ m * n → 52 ≤ (m * n).log2 := fun h => (Nat.le_log2 (by omega)).mpr h
  rcases hm.full_or_least with hfull | hleast
  · have := hlog (Nat.le_trans hfull (Nat.le_mul_of_pos_right m hn0))
    omega
  · rcases hn.full_or_least with hfull | hleast'
    · have := hlog (Nat.le_trans hfull (Nat.le_mul_of_pos_left n hm0))
      omega
    · omega

theorem apply_mul_apply (s t : Sign) (a b : Nat) : s.apply a * t.apply b = (s * t).apply (a * b : Nat) := by
  cases s <;> cases t <;> rw [Nat.cast_mul]
  · exact Int.neg_mul_neg a b
  · exact Int.neg_mul a b
  · exact Int.mul_neg a b
  · rfl

/-- The sign and the absolute value of a factor. -/
theorem exists_eq_apply {s : Sign} {p k : Nat} (h : s.apply p = a * 2 ^ k) :
    ∃ n : Nat, a = s.apply n ∧ p = n * 2 ^ k := by
  have hnonneg : ∀ b : Int, (p : Int) = b * 2 ^ k → ∃ n : Nat, b = n ∧ p = n * 2 ^ k := by
    intro b hb
    have hpos : 0 ≤ b := by
      by_contra hneg
      have := Int.mul_neg_of_neg_of_pos (Int.not_le.mp hneg) (show (0 : Int) < 2 ^ k by positivity)
      omega
    obtain ⟨n, rfl⟩ := Int.eq_ofNat_of_zero_le hpos
    exact ⟨n, rfl, by exact_mod_cast hb⟩
  cases s with
  | positive => exact hnonneg a h
  | negative =>
    obtain ⟨n, hn, hp⟩ := hnonneg (-a) (by rw [Int.neg_mul, ← h]; exact (Int.neg_neg _).symm)
    exact ⟨n, (Int.neg_eq_comm.mp hn).symm, hp⟩

/-- The position of a product that is written with another exponent. -/
theorem nearest_mul_eq {b i j : Nat} (hm : 0 < m) (hn : 0 < n)
    (h : m * 2 ^ i * (n * 2 ^ j) = b * 2 ^ 1074) :
    nearest (m * n) (i - 1074 + (j - 1074)) = nearest b (-1074) := by
  have hb : 0 < b := by
    refine Nat.pos_of_ne_zero fun hzero => ?_
    rw [hzero, Nat.zero_mul] at h
    have : 0 < m * 2 ^ i * (n * 2 ^ j) :=
      Nat.mul_pos (Nat.mul_pos hm (Nat.two_pow_pos i)) (Nat.mul_pos hn (Nat.two_pow_pos j))
    omega
  have hproduct : m * n * 2 ^ (i + j) = b * 2 ^ 1074 := by
    rw [← h, Nat.pow_add]
    ac_rfl
  rw [← nearest_mul_two_pow (Nat.mul_pos hm hn) _ (i + j), ← nearest_mul_two_pow hb (-1074) 1074, hproduct]
  congr 1
  omega

/-- The product of finite numbers is rounded from the product of their units, where that is a number of units. -/
theorem position_mul (hu : Packable u) (hv : Packable v) (hfu : u.isFinite = true) (hfv : v.isFinite = true)
    (h : unitsOf u * unitsOf v = a * 2 ^ 1074) :
    position (Float.Model.pack (UnpackedFloat.mul .binary64 u v)).unpack = rankOfUnits a := by
  have hzero : unitsOf u * unitsOf v = 0 → rankOfUnits a = 0 := by
    intro hz
    rw [hz] at h
    rw [(Int.mul_eq_zero.mp h.symm).resolve_right (by positivity)]
    rfl
  have hpack : ∀ s, position (Float.Model.pack (.zero s)).unpack = 0 := fun s => by
    rw [unpack_pack (fun _ _ _ _ h => by cases h)]
    rfl
  obtain ⟨s, rfl⟩ | ⟨s, m, e, hm, rfl⟩ := cases_of_isFinite hfu
  · rw [hzero (Int.zero_mul _)]
    obtain ⟨t, rfl⟩ | ⟨t, n, f, hn, rfl⟩ := cases_of_isFinite hfv <;> exact hpack _
  · obtain ⟨t, rfl⟩ | ⟨t, n, f, hn, rfl⟩ := cases_of_isFinite hfv
    · rw [hzero (Int.mul_zero _)]
      exact hpack _
    · have hm' := hu _ _ _ _ rfl
      have hn' := hv _ _ _ _ rfl
      have he := hm'.le_exponent
      have hf := hn'.le_exponent
      show position (Float.Model.pack (roundWithAccuracy .binary64 (s * t) (m * n) (e + f) .exact)).unpack = _
      rw [position_roundWithAccuracy _ (le_lastPlace_mul hm' hn' hm hn), ← nearest]
      rw [unitsOf, unitsOf, apply_mul_apply] at h
      obtain ⟨b, rfl, hproduct⟩ := exists_eq_apply h
      rw [rankOfUnits_apply, rankOfUnits_natCast, ← nearest_mul_eq hm hn hproduct]
      congr 2
      omega

/-- Multiplication multiplies units and rounds. -/
theorem rank_mul (hx : x.isFinite = true) (hy : y.isFinite = true) (h : units x * units y = a * 2 ^ 1074) :
    rank (x * y) = rankOfUnits a :=
  (rank_eq_position _).trans (position_mul (packable_unpack x) (packable_unpack y) hx hy h)

theorem isNaN_mul_of_isFinite (hx : x.isFinite = true) (hy : y.isFinite = true) : (x * y).isNaN = false := by
  show (Float.Model.pack (UnpackedFloat.mul .binary64 x.toModel.unpack y.toModel.unpack)).unpack.isNaN = false
  rw [isNaN_pack]
  obtain ⟨s, hu⟩ | ⟨s, m, e, hm, hu⟩ := cases_of_isFinite hx <;>
    obtain ⟨t, hv⟩ | ⟨t, n, f, hn, hv⟩ := cases_of_isFinite hy <;> rw [hu, hv]
  · rfl
  · rfl
  · rfl
  · exact isNaN_roundWithAccuracy ..

end Products

/-! ## Exact results -/

section Exact

variable {x y : Float} {a : Int} {p : Nat}

theorem isNaN_sub_of_isFinite (hx : x.isFinite = true) (hy : y.isFinite = true) : (x - y).isNaN = false := by
  rw [isNaN_sub_eq]
  obtain ⟨s, hu⟩ | ⟨s, m, e, hm, hu⟩ := cases_of_isFinite hx <;>
    obtain ⟨t, hv⟩ | ⟨t, n, f, hn, hv⟩ := cases_of_isFinite hy <;> rw [hu, hv]
  · cases s <;> cases t <;> rfl
  · rfl
  · rfl
  · exact isNaN_normalize ..

theorem units_add_exact (hx : x.isFinite = true) (hy : y.isFinite = true) (hp : p < 2045)
    (ha : a.natAbs ≤ 9007199254740992) (h : units x + units y = a * 2 ^ p) :
    (x + y).isFinite = true ∧ units (x + y) = a * 2 ^ p :=
  units_of_rank_whole ha hp (isNaN_add_of_isFinite hx hy) ((rank_add hx hy).trans (congrArg rankOfUnits h))

theorem units_sub_exact (hx : x.isFinite = true) (hy : y.isFinite = true) (hp : p < 2045)
    (ha : a.natAbs ≤ 9007199254740992) (h : units x - units y = a * 2 ^ p) :
    (x - y).isFinite = true ∧ units (x - y) = a * 2 ^ p :=
  units_of_rank_whole ha hp (isNaN_sub_of_isFinite hx hy) ((rank_sub hx hy).trans (congrArg rankOfUnits h))

theorem units_mul_exact (hx : x.isFinite = true) (hy : y.isFinite = true) (hp : p < 2045)
    (ha : a.natAbs ≤ 9007199254740992) (h : units x * units y = a * 2 ^ p * 2 ^ 1074) :
    (x * y).isFinite = true ∧ units (x * y) = a * 2 ^ p :=
  units_of_rank_whole ha hp (isNaN_mul_of_isFinite hx hy) (rank_mul hx hy h)

/-- A machine word of at most 53 binary digits is a double. -/
theorem units_toFloat {i : UInt64} (h : i.toNat ≤ 9007199254740992) :
    i.toFloat.isFinite = true ∧ units i.toFloat = i.toNat * 2 ^ 1074 := by
  have hmodel : i.toFloat.toModel = Float.Model.pack (UnpackedFloat.normalize .binary64 i.toNat 0 .positive) := rfl
  refine units_of_rank_whole (by rwa [Int.natAbs_natCast]) (by decide) ?_ ?_
  · show i.toFloat.toModel.unpack.isNaN = false
    rw [hmodel, isNaN_pack, isNaN_normalize]
  · rw [rank_eq_position, hmodel, position_normalize (by decide)]
    rfl

end Exact

/-! ## Whole parts of quotients -/

section Quotients

variable {x y z : Float} {a c : Int} {p : Nat}

/-- What is not above a quotient is not above the rounded one, if it has as many digits as a double. -/
theorem le_quotientToEven_mul {m j k q d : Nat} (hd : 0 < d) (hm : m < 9007199254740992)
    (hfull : 4503599627370496 * d ≤ q ∨ k = 0) (h : m * 2 ^ j * d ≤ q * 2 ^ k) :
    m * 2 ^ j ≤ quotientToEven q d * 2 ^ k := by
  have hround := div_le_quotientToEven q d
  rcases Nat.lt_or_ge j k with hjk | hkj
  · -- A smaller place holds smaller numbers only.
    have hquot : 4503599627370496 ≤ q / d := (Nat.le_div_iff_mul_le hd).mpr (hfull.resolve_right (by omega))
    calc m * 2 ^ j ≤ 4503599627370496 * 2 ^ (j + 1) := by
          rw [Nat.pow_succ]
          have := Nat.mul_le_mul_right (2 ^ j) (Nat.le_of_lt hm)
          omega
      _ ≤ 4503599627370496 * 2 ^ k := Nat.mul_le_mul_left _ (Nat.pow_le_pow_right (by decide) hjk)
      _ ≤ quotientToEven q d * 2 ^ k := Nat.mul_le_mul_right _ (Nat.le_trans hquot hround)
  · -- At a larger place the number is a multiple of the smaller one.
    have hsplit : m * 2 ^ j = m * 2 ^ (j - k) * 2 ^ k := by
      rw [Nat.mul_assoc, ← Nat.pow_add, Nat.sub_add_cancel hkj]
    rw [hsplit] at h ⊢
    rw [Nat.mul_right_comm] at h
    have hmul : m * 2 ^ (j - k) * d ≤ q := Nat.le_of_mul_le_mul_right h (Nat.two_pow_pos k)
    exact Nat.mul_le_mul_right _ (Nat.le_trans ((Nat.le_div_iff_mul_le hd).mpr hmul) hround)

/-- A quotient of positive numbers is not rounded to less than a double that is not above it. -/
theorem units_le_div (px : 0 < units x) (py : 0 < units y) (h : (x / y).isFinite = true) (hz : z.isFinite = true)
    (hle : units z * units y ≤ units x * 2 ^ 1074) : units z ≤ units (x / y) := by
  obtain ⟨q, d, k, hd, hexact, hunits, hplace⟩ := exists_cut px py h
  obtain ⟨s, m, j, hstored, hz, -⟩ := exists_stored hz
  have hbelow : units z * d ≤ q * 2 ^ k := by
    refine le_of_mul_le_mul_right ?_ py
    calc units z * d * units y = units z * units y * d := by ring
      _ ≤ units x * 2 ^ 1074 * d := by gcongr
      _ = q * 2 ^ k * units y := by rw [← hexact]; ring
  rw [hunits]
  cases s with
  | negative =>
    rw [hz, Sign.apply]
    omega
  | positive =>
    rw [hz, Sign.apply] at hbelow ⊢
    exact_mod_cast le_quotientToEven_mul hd hstored.mantissa_lt (by omega) (by exact_mod_cast hbelow)

/-- The whole part of a quotient of numbers of at most 53 binary digits at one place is exact. -/
theorem units_div_whole (hx : x.isFinite = true) (ha : units x = a * 2 ^ p) (hc : units y = c * 2 ^ p) (h0 : 0 ≤ a)
    (hsmall : a < 9007199254740992) (hpos : 0 < c) (h : (x / y).isFinite = true) :
    0 ≤ units (x / y) ∧ units (x / y) / 2 ^ 1074 = a / c := by
  have hpow : (0 : Int) < 2 ^ p := by positivity
  have py : 0 < units y := hc ▸ Int.mul_pos hpos hpow
  have hdigits : (a / c).natAbs ≤ 9007199254740992 := by
    have := Int.ediv_nonneg h0 hpos.le
    have := Int.ediv_le_self c h0
    omega
  obtain ⟨hnonneg, hlow, -⟩ := whole_div_bounds hx (ha ▸ Int.mul_nonneg h0 hpow.le) py h
  refine ⟨hnonneg, Int.le_antisymm ?_ ?_⟩
  · -- The relative error of the quotient is less than one divisor.
    rw [ha, hc, ← Int.mul_assoc, ← Int.mul_assoc, ← Int.mul_assoc] at hlow
    have hcancel := le_of_mul_le_mul_right hlow hpow
    rw [Int.mul_assoc] at hcancel
    exact (Int.le_ediv_iff_mul_le hpos).mpr (by omega)
  · rw [Int.le_ediv_iff_mul_le (by positivity)]
    rcases Int.lt_or_eq_of_le h0 with hlt | rfl
    · have hmul : a / c * c ≤ a := Int.ediv_mul_le a hpos.ne'
      obtain ⟨z, hz, hunits⟩ := exists_units_eq hdigits (by decide : 1074 < 2045)
      rw [← hunits]
      refine units_le_div (ha ▸ Int.mul_pos hlt hpow) py h hz ?_
      rw [hunits, ha, hc]
      calc a / c * 2 ^ 1074 * (c * 2 ^ p) = a / c * c * (2 ^ 1074 * 2 ^ p) := mul_mul_mul_comm ..
        _ ≤ a * (2 ^ 1074 * 2 ^ p) := by gcongr
        _ = a * 2 ^ p * 2 ^ 1074 := by rw [Int.mul_comm (2 ^ 1074), Int.mul_assoc]
    · rwa [Int.zero_ediv, Int.zero_mul]

end Quotients

end Number
end ParetoSweep
