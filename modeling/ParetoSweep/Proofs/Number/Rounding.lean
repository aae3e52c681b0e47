import Mathlib
import ParetoSweep.Number.Text
import ParetoSweep.Proofs.Number.Order

/-!
# Rounding to the nearest double

An exact number `n / d · 2 ^ e` is rounded by shifting its whole part to the last place that a double near it has, while
two extra bits remember how the rest compares with one half (`Keeps`). What comes out is the nearest quotient, a half
going to the even neighbour (`quotientToEven`), packed with that last place; a carry into a 54th bit moves the last
place on and keeps the position (`position_of_keeps`). Where nothing is divided, the rank of a rounded number is one
formula, `nearest n e` (`position_round`), which is monotone in `n` (`nearest_mono`) and gives every double back
(`nearest_stored`).
-/

namespace ParetoSweep
namespace Number

open Float.Model (UnpackedFloat)
open Float.Model.UnpackedFloat

/-! ## Packing -/

section Packing

variable {s : Sign} {m : Nat} {e : Int}

/-- What is stored with a full mantissa. -/
theorem unpack_packed_full (hlow : 4503599627370496 ≤ m) (hm : m < 9007199254740992) {b : Nat} (hb : 0 < b)
    (hb' : b < 2047) (h0 : 0 < m) :
    UnpackedFloat.unpack .binary64 (packComponents .binary64 s (BitVec.ofNat 11 b) (BitVec.ofNat 52 m))
      = .finite s m (b - 1075) h0 := by
  unfold UnpackedFloat.unpack
  have hne : BitVec.ofNat 11 b ≠ -1#11 := fun h => by
    have := congrArg BitVec.toNat h
    simp at this
    omega
  have hnz : BitVec.ofNat 11 b ≠ 0#11 := fun h => by
    have := congrArg BitVec.toNat h
    simp at this
    omega
  simp only [unpackMantissa_packComponents, unpackExponent_packComponents, unpackSign_packComponents,
    Sign.ofBitVec_toBitVec]
  rw [if_neg hne, if_neg hnz]
  congr 1
  · rw [toNat_hidden_append, BitVec.toNat_ofNat]
    omega
  · rw [BitVec.toNat_ofNat, Nat.mod_eq_of_lt (by omega)]
    rfl

theorem unpack_packed_least (hm : m < 4503599627370496) (h0 : 0 < m) :
    UnpackedFloat.unpack .binary64 (packComponents .binary64 s 0#11 (BitVec.ofNat 52 m)) = .finite s m (-1074) h0 := by
  unfold UnpackedFloat.unpack
  have hm' : (BitVec.ofNat 52 m).toNat = m := by
    rw [BitVec.toNat_ofNat, Nat.mod_eq_of_lt hm]
  have hnz : BitVec.ofNat 52 m ≠ 0#52 := fun h => by
    have := congrArg BitVec.toNat h
    rw [hm'] at this
    simp at this
    omega
  simp only [unpackMantissa_packComponents, unpackExponent_packComponents, unpackSign_packComponents,
    Sign.ofBitVec_toBitVec]
  rw [if_neg (by decide), if_pos trivial, dif_neg hnz]
  congr 1

theorem log2_eq_of_full (hlow : 4503599627370496 ≤ m) (hm : m < 9007199254740992) : m.log2 = 52 := by
  have h1 := (Nat.le_log2 (n := m) (k := 52) (by omega)).mpr hlow
  have h2 := (Nat.log2_lt (n := m) (k := 53) (by omega)).mpr hm
  omega

theorem biased_eq (e : Int) :
    (e + (Float.Model.Format.exponentBias .binary64 : Nat) + (52 : Nat)).toNat = (e + 1075).toNat := by
  show (e + ((2 ^ (11 - 1) - 1 : Nat) : Int) + (52 : Nat)).toNat = _
  omega

/-- A stored double is unpacked as it was packed. -/
theorem unpack_pack_finite (h : Stored m e) (h0 : 0 < m) :
    (Float.Model.pack (.finite s m e h0)).unpack = .finite s m e h0 := by
  obtain ⟨hm, he, he', hfull⟩ := h
  show UnpackedFloat.unpack .binary64 (UnpackedFloat.pack .binary64 _) = _
  unfold UnpackedFloat.pack
  simp only [biased_eq]
  rw [if_neg (by simp; omega)]
  by_cases hlow : 4503599627370496 ≤ m
  · rw [if_pos (by rw [log2_eq_of_full hlow hm]; rfl), unpack_packed_full hlow hm (by omega) (by omega) h0]
    congr 1
    omega
  · have hlog : m.log2 < 52 := (Nat.log2_lt (by omega)).mpr (by omega)
    obtain rfl : e = -1074 := hfull.resolve_left hlow
    rw [if_neg (by show m.log2 + 1 ≠ 53; omega), unpack_packed_least (by omega) h0]

/-- Packing loses nothing that a double may have. -/
theorem unpack_pack : ∀ {u : UnpackedFloat}, Packable u → (Float.Model.pack u).unpack = u
  | .notANumber, _ => rfl
  | .infinity s, _ => by cases s <;> rfl
  | .zero s, _ => by cases s <;> rfl
  | .finite _ _ _ h, hu => unpack_pack_finite (hu _ _ _ _ rfl) h

/-- A double that is too large is infinite. -/
theorem unpack_pack_large (he : 972 ≤ e) (h0 : 0 < m) :
    (Float.Model.pack (.finite s m e h0)).unpack = .infinity s := by
  show UnpackedFloat.unpack .binary64 (UnpackedFloat.pack .binary64 _) = _
  unfold UnpackedFloat.pack
  simp only [biased_eq]
  rw [if_pos (by simp; omega)]
  cases s <;> rfl

end Packing

/-! ## Shifting and rounding -/

/-- What a mantissa keeps of `n / d`: the whole part, and where the rest lies relative to one half. -/
structure Keeps (em : ExtendedMantissa) (n d : Nat) : Prop where
  whole : em.mantissa = n / d
  half : em.roundBit = decide (d ≤ 2 * (n % d))
  inexact : em.stickyBit = decide (n % d ≠ 0 ∧ 2 * (n % d) ≠ d)

section Keeps

variable {em : ExtendedMantissa} {n d : Nat}

/-- One more shift keeps one more place. -/
theorem Keeps.shiftRightOne (h : Keeps em n d) (hd : 0 < d) : Keeps em.shiftRightOne n (d * 2) := by
  obtain ⟨hwhole, hhalf, hinexact⟩ := h
  have hlt : n % d < d := Nat.mod_lt _ hd
  have hrest : n % (d * 2) = n % d + d * (n / d % 2) := Nat.mod_mul
  have hbit := Nat.mod_two_eq_zero_or_one (n / d)
  refine ⟨?_, ?_, ?_⟩
  · show em.mantissa / 2 = _
    rw [hwhole, Nat.div_div_eq_div_mul]
  · show (em.mantissa % 2 != 0) = _
    rw [hrest, hwhole]
    rcases hbit with hbit | hbit <;> rw [hbit] <;> simp <;> omega
  · show (em.roundBit || em.stickyBit) = _
    rw [hrest, hhalf, hinexact, ← Bool.decide_or, decide_eq_decide]
    rcases hbit with hbit | hbit <;> rw [hbit] <;> omega

theorem Keeps.shiftRight (h : Keeps em n d) (hd : 0 < d) : ∀ k : Nat, Keeps (em >>> k) n (d * 2 ^ k)
  | 0 => by
    rw [Nat.pow_zero, Nat.mul_one]
    exact h
  | k + 1 => by
    rw [Nat.pow_succ, ← Nat.mul_assoc]
    exact (h.shiftRight hd k).shiftRightOne (Nat.mul_pos hd (Nat.two_pow_pos k))

theorem keeps_exact (n : Nat) : Keeps (ExtendedMantissa.ofMantissaAndAccuracy n .exact) n 1 :=
  ⟨(Nat.div_one n).symm, by simp [Nat.mod_one]; rfl, by simp [Nat.mod_one]; rfl⟩

/-- A whole quotient that is told how the rest compares with one half. -/
theorem keeps_fraction (n : Nat) (hd : 0 < d) :
    Keeps (ExtendedMantissa.ofMantissaAndAccuracy (n / d) (accuracyOfFraction (n % d) d)) n d := by
  unfold accuracyOfFraction ExtendedMantissa.ofMantissaAndAccuracy
  split_ifs with hzero
  · exact ⟨rfl, by simp [hzero, Nat.pos_iff_ne_zero.mp hd], by simp [hzero]⟩
  · rcases Nat.lt_trichotomy (2 * (n % d)) d with hlt | heq | hgt
    · rw [Nat.compare_eq_lt.mpr hlt]
      exact ⟨rfl, by simp [hlt], by simp [hzero, hlt.ne]⟩
    · rw [Nat.compare_eq_eq.mpr heq]
      exact ⟨rfl, by simp [heq], by simp [heq]⟩
    · rw [Nat.compare_eq_gt.mpr hgt]
      exact ⟨rfl, by simp [hgt.le], by simp [hzero, hgt.ne']⟩

/-- The whole part is the mantissa that the places are cut from. -/
theorem Keeps.eq_div {q : Nat} {a : Accuracy} (h : Keeps (ExtendedMantissa.ofMantissaAndAccuracy q a) n d) :
    q = n / d := by
  rw [← h.whole]
  unfold ExtendedMantissa.ofMantissaAndAccuracy
  split <;> rfl

end Keeps

/-- What is kept suffices to round to the nearest. -/
theorem Keeps.roundedMantissa {em : ExtendedMantissa} {n d : Nat} (h : Keeps em n d) :
    em.roundedMantissa = quotientToEven n d := by
  obtain ⟨m, r, s⟩ := em
  obtain ⟨hm, hr, hs⟩ := h
  dsimp only at hm hr hs
  unfold ExtendedMantissa.roundedMantissa quotientToEven
  dsimp only
  rw [← hm]
  cases r <;> cases s <;> simp at hr hs <;> simp only [ExtendedMantissa.accuracy, Accuracy.roundToNearestEven]
  · rw [if_pos (by omega)]
  · rw [if_pos (by omega)]
  · rw [if_neg (by omega), if_neg (by omega)]
  · rw [if_neg (by omega), if_pos (by omega)]

section Quotients

variable {n m d : Nat}

theorem div_le_quotientToEven (n d : Nat) : n / d ≤ quotientToEven n d := by
  unfold quotientToEven
  dsimp only
  split
  · exact Nat.le_refl _
  · split <;> omega

theorem quotientToEven_le (n d : Nat) : quotientToEven n d ≤ n / d + 1 := by
  unfold quotientToEven
  dsimp only
  split
  · omega
  · split <;> omega

/-- Rounding to the nearest is monotone. -/
theorem quotientToEven_mono (d : Nat) (h : n ≤ m) : quotientToEven n d ≤ quotientToEven m d := by
  have hdiv : n / d ≤ m / d := Nat.div_le_div_right h
  rcases Nat.lt_or_eq_of_le hdiv with hlt | heq
  · have := quotientToEven_le n d
    have := div_le_quotientToEven m d
    omega
  · have hn := Nat.div_add_mod n d
    have hm := Nat.div_add_mod m d
    rw [heq] at hn
    have hmod : n % d ≤ m % d := by omega
    unfold quotientToEven
    dsimp only
    rw [heq]
    split_ifs <;> omega

theorem quotientToEven_mul (n : Nat) (hd : 0 < d) : quotientToEven (n * d) d = n := by
  unfold quotientToEven
  dsimp only
  rw [Nat.mul_mod_left, Nat.mul_div_cancel _ hd, if_pos (by omega)]

end Quotients

/-! ## Rounding to a double -/

/-- The exponent of the last place that a double near `n · 2 ^ e` has. -/
def lastPlace (n : Nat) (e : Int) : Int := max (n.log2 + 1 + e - 53) (-1074)

/-- The mantissa of the double nearest to `n · 2 ^ e`, which a carry may have made one place too long. -/
def significand (n : Nat) (e : Int) : Nat :=
  quotientToEven (n * 2 ^ (e - lastPlace n e).toNat) (2 ^ (lastPlace n e - e).toNat)

section LastPlace

variable {n : Nat}

theorem lastPlace_ge (n : Nat) (e : Int) : -1074 ≤ lastPlace n e ∧ (n.log2 : Int) + 1 + e - 53 ≤ lastPlace n e := by
  unfold lastPlace
  omega

theorem log2_mul_two_pow (hn : 0 < n) : ∀ k, (n * 2 ^ k).log2 = n.log2 + k
  | 0 => by simp
  | k + 1 => by
    have hpos : n * 2 ^ k ≠ 0 := Nat.ne_of_gt (Nat.mul_pos hn (Nat.two_pow_pos k))
    rw [Nat.pow_succ, ← Nat.mul_assoc, Nat.mul_comm, Nat.log2_two_mul hpos, log2_mul_two_pow hn k]
    rfl

/-- The last place depends on the number only, not on the way it is written. -/
theorem lastPlace_mul_two_pow (hn : 0 < n) (e : Int) (k : Nat) :
    lastPlace (n * 2 ^ k) (e - k) = lastPlace n e := by
  unfold lastPlace
  rw [log2_mul_two_pow hn]
  omega

end LastPlace

/-! ## Quotients at their last place -/

/-- The quotient `n / d · 2 ^ e` at the last place that a double near it has, rounded to the nearest. -/
def cutQuotient (n d : Nat) (e : Int) : Nat := quotientToEven n (d * 2 ^ (lastPlace (n / d) e - e).toNat)

section CutQuotient

variable {n d : Nat} {e : Int}

/-- The rounded quotient has at most 53 places, or is the power of two that a carry makes. -/
theorem cutQuotient_le (n d : Nat) (e : Int) : cutQuotient n d e ≤ 9007199254740992 := by
  have hplace := (lastPlace_ge (n / d) e).2
  have hcut : n / (d * 2 ^ (lastPlace (n / d) e - e).toNat) < 9007199254740992 := by
    rw [← Nat.div_div_eq_div_mul, Nat.div_lt_iff_lt_mul (Nat.two_pow_pos _)]
    calc n / d < 2 ^ ((n / d).log2 + 1) := Nat.lt_log2_self
      _ ≤ 2 ^ (53 + (lastPlace (n / d) e - e).toNat) := Nat.pow_le_pow_right (by decide) (by omega)
      _ = _ := Nat.pow_add ..
  exact Nat.le_trans (quotientToEven_le ..) hcut

/-- The quotient has 53 places before it is rounded, unless the exponent is the least one. -/
theorem le_cut (he : e ≤ lastPlace (n / d) e) (h : lastPlace (n / d) e ≠ -1074) :
    4503599627370496 ≤ n / (d * 2 ^ (lastPlace (n / d) e - e).toNat) := by
  have hlast : lastPlace (n / d) e = (n / d).log2 + 1 + e - 53 := by unfold lastPlace at *; omega
  have hpos : n / d ≠ 0 := by
    intro hzero
    have hlog : (n / d).log2 = 0 := by rw [hzero, Nat.log2_zero]
    omega
  rw [← Nat.div_div_eq_div_mul, Nat.le_div_iff_mul_le (Nat.two_pow_pos _)]
  calc 4503599627370496 * 2 ^ (lastPlace (n / d) e - e).toNat
      = 2 ^ (52 + (lastPlace (n / d) e - e).toNat) := (Nat.pow_add 2 52 _).symm
    _ = 2 ^ (n / d).log2 := by congr 1; omega
    _ ≤ n / d := Nat.log2_self_le hpos

theorem full_or_least_cutQuotient (he : e ≤ lastPlace (n / d) e) :
    4503599627370496 ≤ cutQuotient n d e ∨ lastPlace (n / d) e = -1074 :=
  (Decidable.em (lastPlace (n / d) e = -1074)).symm.imp_left fun h =>
    Nat.le_trans (le_cut he h) (div_le_quotientToEven ..)

end CutQuotient

section Significand

variable {n : Nat} {e : Int}

/-- Where nothing is lost in front of the last place, the quotient by one is rounded. -/
theorem cutQuotient_one (he : e ≤ lastPlace n e) : cutQuotient n 1 e = significand n e := by
  rw [cutQuotient, significand, Nat.div_one, Nat.one_mul, show (e - lastPlace n e).toNat = 0 by omega, Nat.pow_zero,
    Nat.mul_one]

/-- Any number may be written so. -/
theorem significand_eq_cutQuotient (hn : 0 < n) (e : Int) {k : Nat} (hk : k = (e - lastPlace n e).toNat) :
    significand n e = cutQuotient (n * 2 ^ k) 1 (e - k) := by
  rw [cutQuotient, significand, Nat.div_one, Nat.one_mul, lastPlace_mul_two_pow hn, hk]
  congr 2
  omega

/-- The rounded mantissa has at most 53 places, or is the power of two that a carry makes. -/
theorem significand_le (n : Nat) (e : Int) : significand n e ≤ 9007199254740992 := by
  rcases Nat.eq_zero_or_pos n with rfl | hn
  · have hround := quotientToEven_le 0 (2 ^ (lastPlace 0 e - e).toNat)
    rw [Nat.zero_div] at hround
    rw [significand, Nat.zero_mul]
    omega
  · rw [significand_eq_cutQuotient hn e rfl]
    exact cutQuotient_le ..

/-- The rounded mantissa is full unless the exponent is the least one. -/
theorem le_significand (hn : 0 < n) (h : lastPlace n e ≠ -1074) : 4503599627370496 ≤ significand n e := by
  have hplace : lastPlace (n * 2 ^ (e - lastPlace n e).toNat / 1) (e - (e - lastPlace n e).toNat) = lastPlace n e := by
    rw [Nat.div_one, lastPlace_mul_two_pow hn]
  rw [significand_eq_cutQuotient hn e rfl]
  refine (full_or_least_cutQuotient ?_).resolve_right ?_
  · rw [hplace]
    omega
  · rwa [hplace]

end Significand

theorem targetExponent_eq (n : Nat) (e : Int) :
    Float.Model.Format.targetExponent .binary64 (Float.Model.totalExponent n e) = lastPlace n e := rfl

/-- A mantissa that keeps a quotient is rounded at a later place to the quotient there. -/
theorem shiftToExponent_of_keeps {q n d : Nat} {a : Accuracy} {e f : Int}
    (h : Keeps (ExtendedMantissa.ofMantissaAndAccuracy q a) n d) (hd : 0 < d) (hef : e ≤ f) :
    (shiftToExponent q e a f).1.roundedMantissa = quotientToEven n (d * 2 ^ (f - e).toNat) ∧
      (shiftToExponent q e a f).2 = f := by
  refine ⟨(h.shiftRight hd _).roundedMantissa, ?_⟩
  show e + (f - e).toNat = f
  omega

theorem position_packed {s : Sign} {m : Nat} {e : Int} (hm : m < 9007199254740992) (he : -1074 ≤ e)
    (hfull : 4503599627370496 ≤ m ∨ e = -1074) (h0 : 0 < m) :
    position (Float.Model.pack (.finite s m e h0)).unpack = s.apply (min (magnitude m e) topRank) := by
  by_cases he' : e ≤ 971
  · have hst : Stored m e := ⟨hm, he, he', hfull⟩
    rw [unpack_pack_finite hst h0, position, Int.min_eq_left (Int.le_of_lt hst.magnitude_lt)]
  · rw [unpack_pack_large (by omega) h0, position, Int.min_eq_right (by unfold magnitude topRank; omega)]

theorem shiftToExponent_of_le (n : Nat) {e f : Int} (h : f ≤ e) :
    (shiftToExponent n e .exact f).1.mantissa = n ∧ (shiftToExponent n e .exact f).2 = e := by
  have hzero : (f - e).toNat = 0 := by omega
  unfold shiftToExponent
  rw [hzero]
  exact ⟨rfl, Int.add_zero e⟩

/-- Shifting out a carry keeps the position. -/
theorem magnitude_carry {q : Nat} {f : Int} (hq : q ≤ 9007199254740992) (hf : -1074 ≤ f)
    (hfull : 4503599627370496 ≤ q ∨ f = -1074) :
    let second := shiftToExponent q f .exact (lastPlace q f)
    second.1.mantissa < 9007199254740992 ∧ -1074 ≤ second.2 ∧
      (4503599627370496 ≤ second.1.mantissa ∨ second.2 = -1074) ∧
      magnitude second.1.mantissa second.2 = magnitude q f := by
  dsimp only
  rcases Nat.lt_or_eq_of_le hq with hlt | rfl
  · have hlog : q.log2 < 53 := by
      rcases Nat.eq_zero_or_pos q with rfl | hpos
      · decide
      · exact (Nat.log2_lt (by omega)).mpr hlt
    obtain ⟨hm, he⟩ := shiftToExponent_of_le q (show lastPlace q f ≤ f by unfold lastPlace; omega)
    rw [hm, he]
    exact ⟨hlt, hf, hfull, rfl⟩
  · have hlast : lastPlace 9007199254740992 f = f + 1 := by
      unfold lastPlace
      rw [show Nat.log2 9007199254740992 = 53 by decide +kernel]
      omega
    have hm : (shiftToExponent 9007199254740992 f .exact (f + 1)).1.mantissa = 4503599627370496 := by
      unfold shiftToExponent
      rw [show (f + 1 - f).toNat = 1 by omega]
      exact ((keeps_exact _).shiftRight Nat.one_pos 1).whole
    have he := (shiftToExponent_of_keeps (keeps_exact 9007199254740992) Nat.one_pos (show f ≤ f + 1 by omega)).2
    rw [hlast, hm, he]
    refine ⟨by decide, by omega, Or.inl (Nat.le_refl _), ?_⟩
    unfold magnitude
    omega

/-- The position of a rounded quotient. -/
theorem position_of_keeps (s : Sign) {q n d : Nat} {a : Accuracy} {e : Int}
    (h : Keeps (ExtendedMantissa.ofMantissaAndAccuracy q a) n d) (hd : 0 < d) (he : e ≤ lastPlace (n / d) e) :
    position (Float.Model.pack (roundWithAccuracy .binary64 s q e a)).unpack =
      s.apply (min (magnitude (cutQuotient n d e) (lastPlace (n / d) e)) topRank) := by
  obtain rfl := h.eq_div
  obtain ⟨hround, hplace⟩ := shiftToExponent_of_keeps h hd he
  rw [← cutQuotient] at hround
  obtain ⟨hlt, hge, hfull, hmag⟩ :=
    magnitude_carry (cutQuotient_le n d e) (lastPlace_ge (n / d) e).1 (full_or_least_cutQuotient he)
  unfold roundWithAccuracy shiftToTargetExponent
  simp only [targetExponent_eq, hround, hplace]
  rw [← hmag]
  split
  · rename_i h0
    rw [unpack_pack (fun _ _ _ _ h => by cases h), position, h0]
    have hleast := hfull.resolve_left (by omega)
    unfold magnitude topRank
    cases s <;> simp only [Sign.apply] <;> omega
  · rename_i h0
    exact position_packed hlt hge hfull (Nat.pos_of_ne_zero h0)

/-- The position of a rounded number. -/
theorem position_roundWithAccuracy (s : Sign) {m : Nat} {e : Int} (he : e ≤ lastPlace m e) :
    position (Float.Model.pack (roundWithAccuracy .binary64 s m e .exact)).unpack =
      s.apply (min (magnitude (significand m e) (lastPlace m e)) topRank) := by
  have hone : lastPlace (m / 1) e = lastPlace m e := by rw [Nat.div_one]
  rw [position_of_keeps s (keeps_exact m) Nat.one_pos (by rwa [hone]), hone, cutQuotient_one he]

/-- The position of the double nearest to `n · 2 ^ e`. -/
def nearest (n : Nat) (e : Int) : Int := min (magnitude (significand n e) (lastPlace n e)) topRank

/-- Rounding goes to the nearest double. -/
theorem position_round (s : Sign) {n : Nat} (hn : 0 < n) (e : Int) :
    position (Float.Model.pack (UnpackedFloat.round .binary64 s n e)).unpack = s.apply (nearest n e) := by
  unfold UnpackedFloat.round decreaseExponent
  simp only [targetExponent_eq, Nat.shiftLeft_eq]
  generalize hk : (e - lastPlace n e).toNat = k
  have hlast := lastPlace_mul_two_pow hn e k
  rw [position_roundWithAccuracy s (by omega), hlast, nearest]
  unfold significand
  rw [hlast, show (e - k - lastPlace n e).toNat = 0 by omega, hk, Nat.pow_zero, Nat.mul_one,
    show (lastPlace n e - (e - k)).toNat = (lastPlace n e - e).toNat by omega]

/-- Rounding is monotone. -/
theorem nearest_mono {n m : Nat} (hn : 0 < n) (h : n ≤ m) (e : Int) : nearest n e ≤ nearest m e := by
  have hlog : n.log2 ≤ m.log2 := (Nat.le_log2 (by omega)).mpr (Nat.le_trans (Nat.log2_self_le (by omega)) h)
  have hplace : lastPlace n e ≤ lastPlace m e := by unfold lastPlace; omega
  unfold nearest
  refine Int.le_min.mpr ⟨Int.le_trans (Int.min_le_left ..) ?_, Int.min_le_right ..⟩
  unfold magnitude
  rcases Int.lt_or_eq_of_le hplace with hlt | heq
  · have := significand_le n e
    have := le_significand (n := m) (e := e) (by omega) (by have := (lastPlace_ge n e).1; omega)
    omega
  · have : significand n e ≤ significand m e := by
      unfold significand
      rw [heq]
      exact quotientToEven_mono _ (Nat.mul_le_mul_right _ h)
    omega

/-- Stored numbers round to themselves. -/
theorem nearest_stored {m : Nat} {e : Int} (h : Stored m e) (hm : 0 < m) (k : Nat) :
    nearest (m * 2 ^ k) (e - k) = magnitude m e := by
  have hlog : m.log2 < 53 := (Nat.log2_lt (by omega)).mpr h.mantissa_lt
  have hplace : lastPlace m e = e := by
    have := h.le_exponent
    unfold lastPlace
    rcases h.full_or_least with hfull | hleast
    · have : 52 ≤ m.log2 := (Nat.le_log2 (by omega)).mpr hfull
      omega
    · omega
  unfold nearest significand
  rw [lastPlace_mul_two_pow hm, hplace, show (e - k - e).toNat = 0 by omega, Nat.pow_zero, Nat.mul_one,
    show (e - (e - k)).toNat = k by omega, quotientToEven_mul _ (Nat.two_pow_pos k)]
  exact Int.min_eq_left (Int.le_of_lt h.magnitude_lt)

end Number
end ParetoSweep
