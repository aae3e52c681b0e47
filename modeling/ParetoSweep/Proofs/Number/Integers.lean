import ParetoSweep.Proofs.Number.Exact

/-!
# Whole numbers as doubles

A whole number becomes a double by one rounding, whichever of the two ways of reading digits is taken: a product of
exact factors below `2 ^ 53`, and a rounded scientific number from there on (`rank_ofInt`). So the conversion is
monotone (`ofInt_le_ofInt`), finite on machine words (`isFinite_ofInt`), and exact up to `2 ^ 53` (`units_ofInt`).
-/

namespace ParetoSweep
namespace Number

open Float.Model (UnpackedFloat)
open Float.Model.UnpackedFloat

/-! ## Conversion -/

section Conversion

variable {u : UnpackedFloat} {a b : Int}

/-- One in parts. -/
def one : UnpackedFloat := .finite .positive 4503599627370496 (-52) (by decide)

/-- Multiplying by one keeps the position. -/
theorem position_mul_one (hu : Packable u) :
    position (Float.Model.pack (UnpackedFloat.mul .binary64 u one)).unpack = position u := by
  cases u with
  | notANumber => rfl
  | infinity s => cases s <;> rfl
  | zero s => cases s <;> rfl
  | finite s m e hm =>
    have hstored := hu _ _ _ _ rfl
    have hself : nearest (m * 4503599627370496) (e + -52) = magnitude m e := nearest_stored hstored hm 52
    have hplace : lastPlace (m * 4503599627370496) (e + -52) = lastPlace m e := lastPlace_mul_two_pow hm e 52
    have hle : e + -52 ≤ lastPlace m e := by
      have := (lastPlace_ge m e).2
      omega
    unfold UnpackedFloat.mul one
    dsimp only
    rw [position_roundWithAccuracy _ (by omega), ← nearest, hself]
    cases s <;> rfl

theorem isNaN_mul_one (hu : u.isNaN = false) : (UnpackedFloat.mul .binary64 u one).isNaN = false := by
  cases u with
  | notANumber => cases hu
  | infinity s => rfl
  | zero s => rfl
  | finite s m e hm => exact isNaN_roundWithAccuracy ..

/-- The double that decimal numbers without an exponent are multiplied with. -/
theorem mul_powerOfTen_zero (x : Float) : (x * Float.exactlyRepresentablePowersOfTen[0]).toModel =
    Float.Model.pack (UnpackedFloat.mul .binary64 x.toModel.unpack one) := rfl

/-- A whole number that is read from decimal digits is rounded. -/
theorem ofScientific_zero {n : Nat} (hn : 0 < n) : UnpackedFloat.ofScientific .binary64 n 0 =
    roundWithAccuracy .binary64 .positive (n * 2 ^ 53) (-53) .exact := by
  have hlow : ¬ (0 : Int) < -(2 ^ Float.Model.Format.exponentBits .binary64 + n.log2) := by
    show ¬ (0 : Int) < -(2048 + n.log2)
    omega
  unfold UnpackedFloat.ofScientific
  rw [dif_neg (by omega), if_neg (by decide), if_neg hlow, if_pos (Int.le_refl 0)]
  unfold UnpackedFloat.mul
  dsimp only
  rw [Nat.shiftLeft_eq]
  congr 1
  exact Nat.mul_one _

/-- A natural number is rounded to the nearest double. -/
theorem rank_ofNat (n : Nat) : rank (.ofNat n) = rankOfUnits (n * 2 ^ 1074) ∧ (Float.ofNat n).isNaN = false := by
  rw [rank_eq_position]
  show position (Float.ofScientific n false 0).toModel.unpack = _ ∧
    (Float.ofScientific n false 0).toModel.unpack.isNaN = false
  unfold Float.ofScientific
  split
  case isTrue h =>
    have hn : n.toUInt64.toNat = n := by
      rw [Nat.toUInt64_eq, UInt64.toNat_ofNat']
      omega
    have hunpack : n.toUInt64.toFloat.toModel =
        Float.Model.pack (UnpackedFloat.normalize .binary64 n.toUInt64.toNat 0 .positive) := rfl
    dsimp only
    rw [if_neg Bool.false_ne_true, mul_powerOfTen_zero, position_mul_one (packable_unpack _), isNaN_pack, hunpack,
      position_normalize (by decide), hn, isNaN_mul_one (by rw [isNaN_pack, isNaN_normalize])]
    exact ⟨rfl, rfl⟩
  case isFalse h =>
    have hlarge : 9007199254740992 ≤ n := by omega
    have hlog : 53 ≤ n.log2 := (Nat.le_log2 (by omega)).mpr hlarge
    have hplace : lastPlace (n * 2 ^ 53) (-53) = lastPlace n 0 := lastPlace_mul_two_pow (by omega) 0 53
    have hself : nearest (n * 2 ^ 53) (-53) = nearest n 0 := nearest_mul_two_pow (by omega) 0 53
    have hunits : nearest n 0 = rankOfUnits (n * 2 ^ (0 + 1074 : Int).toNat) := by
      rw [← position_normalize (by decide) n .positive, position_normalize_pos (by omega), Int.toNat_natCast]
    have hge := (lastPlace_ge n 0).2
    dsimp only
    show position (Float.Model.pack (UnpackedFloat.ofScientific .binary64 n 0)).unpack = _ ∧
      (Float.Model.pack (UnpackedFloat.ofScientific .binary64 n 0)).unpack.isNaN = false
    rw [isNaN_pack, ofScientific_zero (by omega), isNaN_roundWithAccuracy,
      position_roundWithAccuracy _ (by omega), ← nearest, hself, hunits]
    exact ⟨rfl, rfl⟩

/-- A whole number is rounded to the nearest double. -/
theorem rank_ofInt (n : Int) : rank (.ofInt n) = rankOfUnits (n * 2 ^ 1074) := by
  cases n with
  | ofNat n => exact (rank_ofNat n).1
  | negSucc n =>
    rw [Int.negSucc_eq, Int.neg_mul, rankOfUnits_neg, show (n : Int) + 1 = (n.succ : Nat) by simp,
      ← (rank_ofNat n.succ).1]
    exact rank_neg _

theorem isNaN_ofInt (n : Int) : (Float.ofInt n).isNaN = false := by
  cases n with
  | ofNat n => exact (rank_ofNat n).2
  | negSucc n => exact (isNaN_neg _).trans (rank_ofNat n.succ).2

/-- The conversion of whole numbers is monotone. -/
theorem ofInt_le_ofInt (h : a ≤ b) : Float.ofInt a ≤ Float.ofInt b := by
  rw [le_iff_rank (isNaN_ofInt a) (isNaN_ofInt b), rank_ofInt, rank_ofInt]
  exact rankOfUnits_mono (Int.mul_le_mul_of_nonneg_right h (by positivity))

/-- No machine word is infinite as a double. -/
theorem isFinite_ofInt (n : Int64) : (Float.ofInt n.toInt).isFinite = true := by
  have hlow : -9223372036854775808 ≤ n.toInt := n.le_toInt
  have hhigh : n.toInt ≤ 9223372036854775808 := Int.le_of_lt n.toInt_lt
  have hpow : ∀ p : Nat, (9223372036854775808 : Int) * 2 ^ p = (4503599627370496 * 2 ^ (p + 11) : Nat) := by
    intro p
    rw [Nat.pow_add]
    push_cast
    omega
  have hstored : Stored 4503599627370496 ((1074 + 11 : Nat) - 1074) := by constructor <;> decide
  have htop : rankOfUnits (9223372036854775808 * 2 ^ 1074) < topRank := by
    rw [hpow, rankOfUnits_natCast, nearest_stored_units hstored]
    exact hstored.magnitude_lt
  have hmono : ∀ {a b : Int}, a ≤ b → rankOfUnits (a * 2 ^ 1074) ≤ rankOfUnits (b * 2 ^ 1074) := fun h =>
    rankOfUnits_mono (Int.mul_le_mul_of_nonneg_right h (by positivity))
  have hlower := hmono hlow
  have hupper := hmono hhigh
  rw [Int.neg_mul, rankOfUnits_neg] at hlower
  rw [isFinite_iff_rank (isNaN_ofInt _), rank_ofInt]
  omega

section Exact

variable {p : Nat}

/-- A number of at most 53 binary digits before the place `2 ^ p` is stored as it is. -/
theorem exists_stored_natCast {n : Nat} (h : n ≤ 9007199254740992) (hn : 0 < n) (hp : p < 2045) :
    ∃ m k : Nat, 0 < m ∧ Stored m (k - 1074) ∧ n * 2 ^ p = m * 2 ^ k := by
  rcases Nat.lt_or_eq_of_le h with hlt | rfl
  · have hlog : n.log2 < 53 := (Nat.log2_lt (by omega)).mpr hlt
    -- The digits are shifted until the mantissa is full or the place is the least one.
    obtain ⟨j, hj⟩ : ∃ j, j = min p (52 - n.log2) := ⟨_, rfl⟩
    have hhigh : n * 2 ^ j < 9007199254740992 := by
      calc n * 2 ^ j < 2 ^ (n.log2 + 1) * 2 ^ j := Nat.mul_lt_mul_of_pos_right Nat.lt_log2_self (Nat.two_pow_pos j)
        _ = 2 ^ (n.log2 + 1 + j) := (Nat.pow_add ..).symm
        _ ≤ 2 ^ 53 := Nat.pow_le_pow_right (by decide) (by omega)
    have hfull : 4503599627370496 ≤ n * 2 ^ j ∨ p - j = 0 := by
      rcases Nat.lt_or_ge p (52 - n.log2) with hshort | hlong
      · omega
      · have hlow := Nat.mul_le_mul_right (2 ^ j) (Nat.log2_self_le (n := n) (by omega))
        rw [← Nat.pow_add, show n.log2 + j = 52 by omega] at hlow
        exact Or.inl hlow
    refine ⟨n * 2 ^ j, p - j, Nat.mul_pos hn (Nat.two_pow_pos j), ⟨hhigh, by omega, by omega, by omega⟩, ?_⟩
    rw [Nat.mul_assoc, ← Nat.pow_add, show j + (p - j) = p by omega]
  · refine ⟨4503599627370496, p + 1, by decide, ⟨by decide, by omega, by omega, Or.inl (Nat.le_refl _)⟩, ?_⟩
    rw [Nat.pow_succ]
    omega

/-- A whole number of at most 53 binary digits at the place `2 ^ p` is a double. -/
theorem exists_units_eq {n : Int} (h : n.natAbs ≤ 9007199254740992) (hp : p < 2045) :
    ∃ x : Float, x.isFinite = true ∧ units x = n * 2 ^ p := by
  rcases Nat.eq_zero_or_pos n.natAbs with hzero | hpos
  · obtain rfl := Int.natAbs_eq_zero.mp hzero
    exact ⟨0, by decide, by rw [Int.zero_mul]; decide⟩
  · obtain ⟨m, k, hm, hstored, hmk⟩ := exists_stored_natCast h hpos hp
    obtain ⟨s, hs⟩ : ∃ s : Sign, n = s.apply n.natAbs :=
      (Int.natAbs_eq n).elim (fun hn => ⟨.positive, hn⟩) fun hn => ⟨.negative, hn⟩
    obtain ⟨x, hx, hunits, -⟩ := exists_of_stored s hstored hm
    refine ⟨x, hx, ?_⟩
    rw [hunits, ← hmk, hs, natAbs_apply]
    cases s <;> simp [Sign.apply]

end Exact

/-- What is rounded from a whole number of at most 53 binary digits at the place `2 ^ p` is that number. -/
theorem units_of_rank_whole {x : Float} {n : Int} {p : Nat} (h : n.natAbs ≤ 9007199254740992) (hp : p < 2045)
    (hx : x.isNaN = false) (hrank : rank x = rankOfUnits (n * 2 ^ p)) :
    x.isFinite = true ∧ units x = n * 2 ^ p := by
  obtain ⟨y, hy, hunits⟩ := exists_units_eq h hp
  rw [← hunits, rankOfUnits_units hy] at hrank
  have hfin : x.isFinite = true := by
    rw [isFinite_iff_rank hx, hrank]
    exact (isFinite_iff_rank (isNaN_of_isFinite hy)).mp hy
  exact ⟨hfin, (units_eq_of_rank_eq hfin hy hrank).trans hunits⟩

/-- The conversion of whole numbers of at most 53 binary digits is exact. -/
theorem units_ofInt {n : Int} (h : n.natAbs ≤ 9007199254740992) : units (.ofInt n) = n * 2 ^ 1074 :=
  (units_of_rank_whole h (by decide) (isNaN_ofInt n) (rank_ofInt n)).2

end Conversion
end Number
end ParetoSweep
