import ParetoSweep.Proofs.Number.Exact

/-!
# When an addend is lost to rounding

A stored mantissa `m` of place `2 ^ k` is the number `m * 2 ^ k` of units, and its neighbours are one place away, but
only half a place below a power of two. So a positive addend does not move it iff it is less than half of the place, or
half of it where the mantissa is even (`Lost`): `lost_of_add_beq` and `add_beq_of_lost`. A negative number that is a
power of two is the exception, since adding moves it towards zero, where places are half as wide.
-/

namespace ParetoSweep
namespace Number

open Float.Model (UnpackedFloat)
open Float.Model.UnpackedFloat

/-! ## Halves of a place -/

/-- What is added to the mantissa `m` at the place `2 ^ k` is less than half of the place, or half of it where the
mantissa is even. -/
def Lost (m k d : Nat) : Prop := 2 * d < 2 ^ k ∨ 2 * d = 2 ^ k ∧ m % 2 = 0

section Places

variable {m n k d : Nat}

/-- The place of a number whose mantissa is full. -/
theorem log2_of_place (hm : m < 9007199254740992) (hfull : 4503599627370496 ≤ m ∨ k = 0) (hd : d < 2 ^ k) :
    (m * 2 ^ k + d).log2 - 52 = k := by
  have hpos := Nat.two_pow_pos k
  rcases hfull with hfull | rfl
  · have hlow : 4503599627370496 * 2 ^ k ≤ m * 2 ^ k := Nat.mul_le_mul_right _ hfull
    have hhigh : (m + 1) * 2 ^ k ≤ 9007199254740992 * 2 ^ k := Nat.mul_le_mul_right _ hm
    rw [Nat.add_mul, Nat.one_mul] at hhigh
    have hlog : (m * 2 ^ k + d).log2 = 52 + k := by
      rw [Nat.log2_eq_iff (by omega), Nat.add_right_comm, Nat.pow_add, Nat.pow_add]
      exact ⟨by omega, by omega⟩
    omega
  · obtain rfl : d = 0 := by omega
    rcases Nat.eq_zero_or_pos m with rfl | hm0
    · rfl
    · have := (Nat.log2_lt (n := m) (k := 53) (by omega)).mpr hm
      simp
      omega

theorem quotientToEven_mul_add (hd : d < 2 ^ k) : quotientToEven (m * 2 ^ k + d) (2 ^ k) =
    if 2 * d < 2 ^ k then m else if 2 ^ k < 2 * d then m + 1 else m + m % 2 := by
  unfold quotientToEven
  rw [Nat.mul_add_mod', Nat.mod_eq_of_lt hd, Nat.mul_comm, Nat.mul_add_div (Nat.two_pow_pos k), Nat.div_eq_of_lt hd,
    Nat.add_zero]

/-- The position of a number between two stored ones. -/
theorem nearest_mul_add (hm : m < 9007199254740992) (hfull : 4503599627370496 ≤ m ∨ k = 0) (hd : d < 2 ^ k) :
    nearest (m * 2 ^ k + d) (-1074) = min (magnitude
      (if 2 * d < 2 ^ k then m else if 2 ^ k < 2 * d then m + 1 else m + m % 2 : Nat) (k - 1074)) topRank := by
  have hplace : lastPlace (m * 2 ^ k + d) (-1074) = k - 1074 := by
    have := log2_of_place hm hfull hd
    unfold lastPlace
    omega
  unfold nearest significand
  rw [hplace, show (-1074 - ((k : Int) - 1074)).toNat = 0 by omega, show ((k : Int) - 1074 - -1074).toNat = k by omega,
    Nat.pow_zero, Nat.mul_one, quotientToEven_mul_add hd]

theorem magnitude_natCast (m k : Nat) : magnitude m (k - 1074) = ((k * 4503599627370496 + m : Nat) : Int) := by
  unfold magnitude
  push_cast
  omega

/-- The next number of the same place is further up, also if it needs one more place. -/
theorem magnitude_lt_nearest_succ (h : Stored m (k - 1074)) :
    magnitude m (k - 1074) < nearest ((m + 1) * 2 ^ k) (-1074) := by
  have hfull := h.full_or_least
  have htop := h.magnitude_lt
  rcases Nat.lt_or_ge (m + 1) 9007199254740992 with hm | hm
  · have hnext := nearest_mul_add hm (k := k) (by omega) (Nat.two_pow_pos k)
    rw [Nat.add_zero, Nat.mul_zero, if_pos (Nat.two_pow_pos k)] at hnext
    rw [hnext]
    simp only [magnitude_natCast] at htop ⊢
    omega
  · obtain rfl : m = 9007199254740991 := by
      have := h.mantissa_lt
      omega
    have hnext := nearest_mul_add (m := 4503599627370496) (by decide) (Or.inl (Nat.le_refl _)) (Nat.two_pow_pos (k + 1))
    rw [Nat.add_zero, Nat.mul_zero, if_pos (Nat.two_pow_pos _)] at hnext
    rw [show (9007199254740991 + 1) * 2 ^ k = 4503599627370496 * 2 ^ (k + 1) by rw [Nat.pow_succ]; omega, hnext]
    simp only [magnitude_natCast] at htop ⊢
    omega

/-- A sum is rounded back to the left side if what is added is lost. -/
theorem nearest_add_eq_iff (h : Stored m (k - 1074)) (hd : 0 < d) :
    nearest (m * 2 ^ k + d) (-1074) = magnitude m (k - 1074) ↔ Lost m k d := by
  have hfull := h.full_or_least
  have htop := h.magnitude_lt
  unfold Lost
  rcases Nat.lt_or_ge d (2 ^ k) with hlt | hge
  · rw [nearest_mul_add h.mantissa_lt (by omega) hlt]
    simp only [magnitude_natCast] at htop ⊢
    split_ifs <;> omega
  · have hnext := magnitude_lt_nearest_succ h
    have hmono : nearest ((m + 1) * 2 ^ k) (-1074) ≤ nearest (m * 2 ^ k + d) (-1074) :=
      nearest_natCast_mono (by rw [Nat.add_mul]; omega)
    omega

/-- A difference is rounded back to the left side if what is subtracted is lost, unless a shorter place begins just
below. -/
theorem nearest_sub_eq_iff (h : Stored m (k - 1074)) (hm : 0 < m) (hfull : 4503599627370496 < m ∨ k = 0) (hd : 0 < d) :
    nearest (m * 2 ^ k - d) (-1074) = magnitude m (k - 1074) ↔ Lost m k d := by
  obtain ⟨n, rfl⟩ : ∃ n, m = n + 1 := ⟨m - 1, by omega⟩
  have htop := h.magnitude_lt
  have hlt := h.mantissa_lt
  have hbelow := fun {e : Nat} => nearest_mul_add (m := n) (k := k) (d := e) (by omega) (by omega)
  unfold Lost
  rw [Nat.add_mul, Nat.one_mul]
  rcases Nat.lt_or_ge (2 ^ k) d with hgt | hle
  · have hmono : nearest (n * 2 ^ k + 2 ^ k - d) (-1074) ≤ nearest (n * 2 ^ k + 0) (-1074) :=
      nearest_natCast_mono (by omega)
    rw [hbelow (Nat.two_pow_pos k), Nat.mul_zero, if_pos (Nat.two_pow_pos k)] at hmono
    simp only [magnitude_natCast] at htop hmono ⊢
    omega
  · rw [show n * 2 ^ k + 2 ^ k - d = n * 2 ^ k + (2 ^ k - d) by omega, hbelow (by omega)]
    simp only [magnitude_natCast] at htop ⊢
    split_ifs <;> omega

/-- Below a power of two the places are half as long. -/
theorem lt_of_nearest_sub_eq (h : Stored 4503599627370496 (k - 1074)) (hk : 0 < k)
    (heq : nearest (4503599627370496 * 2 ^ k - d) (-1074) = magnitude 4503599627370496 (k - 1074)) :
    2 * d < 2 ^ k := by
  obtain ⟨j, rfl⟩ : ∃ j, k = j + 1 := ⟨k - 1, by omega⟩
  have htop := h.magnitude_lt
  have hbelow := nearest_mul_add (m := 9007199254740991) (by decide) (Or.inl (by decide)) (Nat.two_pow_pos j)
  rw [Nat.mul_zero, if_pos (Nat.two_pow_pos j)] at hbelow
  by_contra hge
  have hmono : nearest (4503599627370496 * 2 ^ (j + 1) - d) (-1074) ≤ nearest (9007199254740991 * 2 ^ j + 0) (-1074) :=
    nearest_natCast_mono (by rw [Nat.pow_succ] at hge ⊢; omega)
  rw [hbelow, heq] at hmono
  simp only [magnitude_natCast] at htop hmono
  omega

end Places

/-! ## Sums that do not move -/

section Sums

variable {x y : Float} {s : Sign} {m k d : Nat}

/-- A sum equals its left side if the sum of the units is rounded back. -/
theorem add_beq_iff (hx : x.isFinite = true) (hy : y.isFinite = true) :
    (x + y == x) = true ↔ rankOfUnits (units x + units y) = rank x := by
  rw [beq_iff_rank (isNaN_add_of_isFinite hx hy) (isNaN_of_isFinite hx), rank_add hx hy]

/-- What does not move a finite number is lost at the place of its mantissa. -/
theorem lost_of_add_beq (hx : x.isFinite = true) (hy : y.isFinite = true) (hd : units y = d) (hpos : 0 < d)
    (h : (x + y == x) = true) : ∃ (s : Sign) (m k : Nat), Stored m (k - 1074) ∧ units x = s.apply (m * 2 ^ k : Nat) ∧
      Lost m k d ∧ (s = .negative → m = 4503599627370496 → 2 * d < 2 ^ k) := by
  obtain ⟨s, m, k, hstored, hunits, hrank⟩ := exists_stored hx
  rw [add_beq_iff hx hy, hunits, hrank, hd] at h
  refine ⟨s, m, k, hstored, hunits, ?_⟩
  have hadd : nearest (m * 2 ^ k + d) (-1074) = magnitude m (k - 1074) → Lost m k d :=
    (nearest_add_eq_iff hstored hpos).mp
  cases s with
  | positive =>
    rw [Sign.apply, ← Nat.cast_add, rankOfUnits_natCast] at h
    exact ⟨hadd h, fun hs => by cases hs⟩
  | negative =>
    simp only [Sign.apply] at h
    have hfull := hstored.full_or_least
    rcases Nat.eq_zero_or_pos m with rfl | hm
    · obtain rfl : k = 0 := by omega
      rw [Nat.zero_mul, Int.natCast_zero, Int.neg_zero, Int.zero_add, rankOfUnits_natCast] at h
      rw [Nat.zero_mul, Nat.zero_add] at hadd
      exact ⟨hadd h, fun _ hm => by cases hm⟩
    · rcases Nat.lt_or_ge (m * 2 ^ k) d with hlt | hle
      · rw [show -((m * 2 ^ k : Nat) : Int) + d = ((d - m * 2 ^ k : Nat) : Int) by omega, rankOfUnits_natCast] at h
        have := hstored.magnitude_pos hm
        have := @nearest_nonneg (d - m * 2 ^ k) (-1074)
        omega
      · rw [show -((m * 2 ^ k : Nat) : Int) + d = -((m * 2 ^ k - d : Nat) : Int) by omega, rankOfUnits_neg,
          rankOfUnits_natCast, Int.neg_inj] at h
        by_cases hhalf : m = 4503599627370496 ∧ 0 < k
        · obtain ⟨rfl, hk⟩ := hhalf
          have hlt := lt_of_nearest_sub_eq hstored hk h
          exact ⟨Or.inl hlt, fun _ _ => hlt⟩
        · have hlost := (nearest_sub_eq_iff hstored hm (by omega) hpos).mp h
          refine ⟨hlost, fun _ hm' => ?_⟩
          obtain rfl : k = 0 := by omega
          unfold Lost at hlost
          omega

/-- What is lost at the place of the mantissa does not move a number, unless it leads from a power of two towards
zero. -/
theorem add_beq_of_lost (hx : x.isFinite = true) (hy : y.isFinite = true) (hd : units y = d) (hpos : 0 < d)
    (h : Stored m (k - 1074)) (hunits : units x = s.apply (m * 2 ^ k : Nat))
    (hpower : s = .negative → 4503599627370496 < m) (hlost : Lost m k d) : (x + y == x) = true := by
  rw [add_beq_iff hx hy, ← rankOfUnits_units hx, hunits, hd, rankOfUnits_apply, rankOfUnits_natCast,
    nearest_stored_units h]
  cases s with
  | positive =>
    rw [Sign.apply, Sign.apply, ← Nat.cast_add, rankOfUnits_natCast]
    exact (nearest_add_eq_iff h hpos).mpr hlost
  | negative =>
    have hm := hpower rfl
    have hle : d ≤ m * 2 ^ k := by
      have : 1 * 2 ^ k ≤ m * 2 ^ k := Nat.mul_le_mul_right _ (by omega)
      unfold Lost at hlost
      omega
    simp only [Sign.apply]
    rw [show -((m * 2 ^ k : Nat) : Int) + d = -((m * 2 ^ k - d : Nat) : Int) by omega, rankOfUnits_neg,
      rankOfUnits_natCast, Int.neg_inj]
    exact (nearest_sub_eq_iff h (by omega) (Or.inl hm) hpos).mpr hlost

end Sums

end Number
end ParetoSweep
