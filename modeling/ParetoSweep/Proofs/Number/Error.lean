import ParetoSweep.Proofs.Number.Exact

/-!
# Rounding errors

A stored number has a last place (`place`), and what is rounded to it lies at most half of that place away, since a
carry only leads to a larger place (`error_of_rank`). So sums and differences of finite numbers are known up to half of
a place of the result (`error_add`, `error_sub`). What makes this a statement about numbers of units is that a position
tells them (`units_of_rank`), also where a carry has made the mantissa one binary digit too long (`units_of_rounded`).
-/

namespace ParetoSweep
namespace Number

open Float.Model.UnpackedFloat (Sign)

/-! ## Units of a position -/

section Positions

variable {x : Float} {s : Sign} {m k : Nat}

/-- The number of units is determined by the position. -/
theorem units_of_rank (hx : x.isFinite = true) (h : Stored m (k - 1074))
    (hrank : rank x = s.apply (magnitude m (k - 1074))) : units x = s.apply (m * 2 ^ k : Nat) := by
  rcases Nat.eq_zero_or_pos m with rfl | hm
  · obtain rfl : k = 0 := by
      have := h.full_or_least
      omega
    have hzero : rank x = rank 0 := by
      rw [hrank]
      cases s <;> decide
    rw [units_eq_of_rank_eq hx (by decide) hzero]
    cases s <;> decide
  · obtain ⟨y, hy, hunits, hposition⟩ := exists_of_stored s h hm
    rw [units_eq_of_rank_eq hx hy (hrank.trans hposition.symm), hunits]

/-- The same for a mantissa that a carry may have made one binary digit too long. -/
theorem units_of_rounded (hx : x.isFinite = true) (hm : m ≤ 9007199254740992) (hfull : 4503599627370496 ≤ m ∨ k = 0)
    (hrank : rank x = s.apply (min (magnitude m (k - 1074)) topRank)) : units x = s.apply (m * 2 ^ k : Nat) := by
  obtain ⟨hlow, hhigh⟩ := (isFinite_iff_rank (isNaN_of_isFinite hx)).mp hx
  have hbelow : magnitude m (k - 1074) < topRank := by
    rw [hrank] at hlow hhigh
    cases s <;> simp only [Sign.apply] at hlow hhigh <;> omega
  rw [Int.min_eq_left (Int.le_of_lt hbelow)] at hrank
  have hplace : k * 4503599627370496 + m < 9218868437227405312 := by
    unfold magnitude topRank at hbelow
    omega
  rcases Nat.lt_or_eq_of_le hm with hlt | rfl
  · exact units_of_rank hx ⟨hlt, by omega, by omega, by omega⟩ hrank
  · have hcarry : magnitude 9007199254740992 (k - 1074) = magnitude 4503599627370496 ((k + 1 : Nat) - 1074) := by
      unfold magnitude
      omega
    rw [hcarry] at hrank
    rw [units_of_rank hx ⟨by decide, by omega, by omega, Or.inl (Nat.le_refl _)⟩ hrank, Nat.pow_succ]
    congr 2
    omega

end Positions

/-! ## Half of a place -/

section Places

variable {m n d : Nat} {x y : Float} {a : Int}

/-- A rounded quotient is at most one half away. -/
theorem error_quotientToEven (n : Nat) (hd : 0 < d) :
    2 * n ≤ 2 * (quotientToEven n d * d) + d ∧ 2 * (quotientToEven n d * d) ≤ 2 * n + d := by
  have hsplit : d * (n / d) + n % d = n := Nat.div_add_mod n d
  have hrest : n % d < d := Nat.mod_lt n hd
  unfold quotientToEven
  dsimp only
  split_ifs with hlt hgt
  · rw [Nat.mul_comm (n / d)]
    omega
  · rw [Nat.add_mul, Nat.mul_comm (n / d)]
    omega
  · rcases Nat.mod_two_eq_zero_or_one (n / d) with heven | hodd
    · rw [heven, Nat.add_zero, Nat.mul_comm (n / d)]
      omega
    · rw [hodd, Nat.add_mul, Nat.mul_comm (n / d)]
      omega

/-- The last place of the doubles near a number of units. -/
def place (n : Nat) : Nat := 2 ^ (n.log2 - 52)

theorem place_pos (n : Nat) : 0 < place n := Nat.two_pow_pos _

theorem place_mono (h : m ≤ n) : place m ≤ place n := by
  rcases Nat.eq_zero_or_pos m with rfl | hm
  · exact Nat.two_pow_pos _
  · have hlog : m.log2 ≤ n.log2 := (Nat.le_log2 (by omega)).mpr (Nat.le_trans (Nat.log2_self_le (by omega)) h)
    exact Nat.pow_le_pow_right (by decide) (by omega)

/-- Twice the number has at most twice the place. -/
theorem place_two_mul_le (n : Nat) : place (2 * n) ≤ 2 * place n := by
  rcases Nat.eq_zero_or_pos n with rfl | hn
  · decide
  · unfold place
    rw [Nat.log2_two_mul (by omega), Nat.mul_comm, ← Nat.pow_succ]
    exact Nat.pow_le_pow_right (by decide) (by omega)

/-- The position of a rounded number of units. -/
theorem nearest_units (n : Nat) : significand n (-1074) = quotientToEven n (place n) ∧
    nearest n (-1074) = min (magnitude (quotientToEven n (place n)) ((n.log2 - 52 : Nat) - 1074)) topRank := by
  have hplace : lastPlace n (-1074) = (n.log2 - 52 : Nat) - 1074 := by
    unfold lastPlace
    omega
  have hsig : significand n (-1074) = quotientToEven n (place n) := by
    unfold significand
    rw [hplace, show (-1074 - (((n.log2 - 52 : Nat) : Int) - 1074)).toNat = 0 by omega, Nat.pow_zero, Nat.mul_one,
      show (((n.log2 - 52 : Nat) : Int) - 1074 - -1074).toNat = n.log2 - 52 by omega, place]
  exact ⟨hsig, by rw [nearest, hplace, hsig]⟩

/-- What is rounded to a number is at most half of a place away, and the place is at most that of the number. -/
theorem error_of_rank (hx : x.isFinite = true) (h : rank x = rankOfUnits a) :
    2 * (units x - a).natAbs ≤ place a.natAbs ∧ place a.natAbs ≤ place (units x).natAbs := by
  obtain ⟨s, n, rfl⟩ : ∃ (s : Sign) (n : Nat), a = s.apply n :=
    (Int.natAbs_eq a).elim (fun ha => ⟨.positive, _, ha⟩) fun ha => ⟨.negative, _, ha⟩
  obtain ⟨hsig, hnearest⟩ := nearest_units n
  rw [rankOfUnits_apply, rankOfUnits_natCast, hnearest] at h
  have hfull : 4503599627370496 ≤ quotientToEven n (place n) ∨ n.log2 - 52 = 0 := by
    by_cases hleast : lastPlace n (-1074) = -1074
    · unfold lastPlace at hleast
      omega
    · have hn : 0 < n := Nat.pos_of_ne_zero fun hzero => hleast (by rw [hzero]; decide)
      exact Or.inl (hsig ▸ le_significand hn hleast)
  have hunits := units_of_rounded hx (hsig ▸ significand_le n (-1074)) hfull h
  rw [hunits, natAbs_apply, natAbs_apply]
  constructor
  · obtain ⟨hle, hge⟩ := error_quotientToEven n (place_pos n)
    change 2 * (s.apply (quotientToEven n (place n) * place n : Nat) - s.apply n).natAbs ≤ place n
    cases s <;> simp only [Sign.apply] <;> omega
  · rcases hfull with hfull | hzero
    · refine Nat.pow_le_pow_right (by decide) ?_
      have hlow : 2 ^ (52 + (n.log2 - 52)) ≤ quotientToEven n (place n) * 2 ^ (n.log2 - 52) := by
        rw [Nat.pow_add]
        exact Nat.mul_le_mul_right _ hfull
      have := (Nat.le_log2 (by have := Nat.two_pow_pos (52 + (n.log2 - 52)); omega)).mpr hlow
      omega
    · rw [place, hzero]
      exact place_pos _

/-- A sum is at most half of a place away from the exact one. -/
theorem error_add (hx : x.isFinite = true) (hy : y.isFinite = true) (h : (x + y).isFinite = true) :
    2 * (units (x + y) - (units x + units y)).natAbs ≤ place (units (x + y)).natAbs := by
  obtain ⟨herror, hplace⟩ := error_of_rank h (rank_add hx hy)
  omega

/-- A difference is at most half of a place away from the exact one. -/
theorem error_sub (hx : x.isFinite = true) (hy : y.isFinite = true) (h : (x - y).isFinite = true) :
    2 * (units (x - y) - (units x - units y)).natAbs ≤ place (units x - units y).natAbs :=
  (error_of_rank h (rank_sub hx hy)).1

end Places

end Number
end ParetoSweep
