import ParetoSweep.Number.Integral
import ParetoSweep.Number.Order

/-!
# Doubles compare as their positions

`rank` numbers the doubles in increasing order. Here: two numbers that are not NaN are in the order of their ranks
(`lt_iff_rank`, `le_iff_rank`, `beq_iff_rank`), so that every fact about the order of doubles is a fact about integers.
The reason is that a double is stored with a full mantissa unless its exponent is the least one (`Stored`), so
exponents may be compared before mantissas.
-/

namespace ParetoSweep
namespace Number

open Float.Model (UnpackedFloat)
open Float.Model.UnpackedFloat

/-! ## Stored mantissas and exponents -/

/-- A mantissa and an exponent as a double stores them. -/
structure Stored (m : Nat) (e : Int) : Prop where
  mantissa_lt : m < 9007199254740992
  le_exponent : -1074 ≤ e
  exponent_le : e ≤ 971
  full_or_least : 4503599627370496 ≤ m ∨ e = -1074

/-- The hidden bit stands in front of the stored ones. -/
theorem toNat_hidden_append (v : BitVec 52) : (1#1 ++ v).toNat = 4503599627370496 + v.toNat := by
  rw [BitVec.toNat_append, ← Nat.shiftLeft_add_eq_or_of_lt v.isLt, Nat.shiftLeft_eq]
  rfl

/-- Every finite nonzero double is stored. -/
theorem stored_of_unpack {x : Float} {s : Sign} {m : Nat} {e : Int} {h : 0 < m}
    (hx : x.toModel.unpack = .finite s m e h) : Stored m e := by
  unfold Float.Model.unpack UnpackedFloat.unpack at hx
  dsimp only at hx
  have hlt : (@unpackMantissa .binary64 x.toModel.toBits.toBitVec).toNat < 4503599627370496 := BitVec.isLt _
  by_cases hones : @unpackExponent .binary64 x.toModel.toBits.toBitVec = -1#11
  · rw [if_pos hones] at hx
    by_cases hnone : @unpackMantissa .binary64 x.toModel.toBits.toBitVec = 0#52
    · rw [if_pos hnone] at hx
      cases hx
    · rw [if_neg hnone] at hx
      cases hx
  · rw [if_neg hones] at hx
    by_cases hz : @unpackExponent .binary64 x.toModel.toBits.toBitVec = 0#11
    · rw [if_pos hz] at hx
      by_cases hnone : @unpackMantissa .binary64 x.toModel.toBits.toBitVec = 0#52
      · rw [dif_pos hnone] at hx
        cases hx
      · rw [dif_neg hnone] at hx
        injection hx with _ hm he
        subst hm
        rw [hz] at he
        simp [Float.Model.Format.exponentBias] at he
        constructor <;> omega
    · rw [if_neg hz] at hx
      injection hx with _ hm he
      subst hm
      have hbits : (@unpackExponent .binary64 x.toModel.toBits.toBitVec).toNat < 2048 := BitVec.isLt _
      have hhidden := toNat_hidden_append (@unpackMantissa .binary64 x.toModel.toBits.toBitVec)
      simp [Float.Model.Format.exponentBias, BitVec.toNat_eq] at he hones hz
      constructor <;> omega

/-- The position of a positive double. -/
def magnitude (m : Nat) (e : Int) : Int := (e + 1074) * 4503599627370496 + m

/-- The position of infinity. -/
def topRank : Int := 9218868437227405312

namespace Stored

variable {m n : Nat} {e f : Int}

theorem magnitude_pos (h : Stored m e) (hm : 0 < m) : 0 < magnitude m e := by
  have := h.le_exponent
  unfold magnitude
  omega

theorem magnitude_lt (h : Stored m e) : magnitude m e < topRank := by
  have := h.exponent_le
  have := h.mantissa_lt
  unfold magnitude topRank
  omega

/-- Positions compare as exponents first and mantissas second. -/
theorem compare_magnitude (h : Stored m e) (h' : Stored n f) :
    (compare e f).then (compare m n) = compare (magnitude m e) (magnitude n f) := by
  obtain ⟨hm, he, _, hfull⟩ := h
  obtain ⟨hn, hf, _, hfull'⟩ := h'
  unfold magnitude
  rcases Int.lt_trichotomy e f with hef | rfl | hef
  · rw [Int.compare_eq_lt.mpr hef, Int.compare_eq_lt.mpr (by omega)]; rfl
  · rw [Int.compare_eq_eq.mpr rfl]
    rcases Nat.lt_trichotomy m n with hmn | rfl | hmn
    · rw [Nat.compare_eq_lt.mpr hmn, Int.compare_eq_lt.mpr (by omega)]; rfl
    · rw [Nat.compare_eq_eq.mpr rfl, Int.compare_eq_eq.mpr rfl]; rfl
    · rw [Nat.compare_eq_gt.mpr hmn, Int.compare_eq_gt.mpr (by omega)]; rfl
  · rw [Int.compare_eq_gt.mpr hef, Int.compare_eq_gt.mpr (by omega)]; rfl

end Stored

/-! ## Comparison -/

/-- The position of a number in parts. -/
def position : UnpackedFloat → Int
  | .finite s m e _ => s.apply (magnitude m e)
  | .infinity s => s.apply topRank
  | .zero _ => 0
  | .notANumber => 0

theorem rank_eq_position (x : Float) : rank x = position x.toModel.unpack := by
  unfold rank
  cases x.toModel.unpack with
  | finite s m e h => rfl
  | infinity s => rfl
  | zero s => rfl
  | notANumber => rfl

/-- Parts that a double may have. -/
def Packable (u : UnpackedFloat) : Prop := ∀ s m e h, u = .finite s m e h → Stored m e

theorem packable_unpack (x : Float) : Packable x.toModel.unpack := fun _ _ _ _ => stored_of_unpack

theorem position_positive {m : Nat} {e : Int} {h : 0 < m} (hp : Packable (.finite .positive m e h)) :
    0 < position (.finite .positive m e h) := (hp _ _ _ _ rfl).magnitude_pos h

theorem position_negative {m : Nat} {e : Int} {h : 0 < m} (hp : Packable (.finite .negative m e h)) :
    position (.finite .negative m e h) < 0 := Int.neg_neg_of_pos ((hp _ _ _ _ rfl).magnitude_pos h)

/-- Finite positions lie strictly between those of the infinities. -/
theorem position_finite_bounds {s : Sign} {m : Nat} {e : Int} {h : 0 < m} (hp : Packable (.finite s m e h)) :
    -topRank < position (.finite s m e h) ∧ position (.finite s m e h) < topRank := by
  have hlt := (hp _ _ _ _ rfl).magnitude_lt
  have hpos := (hp _ _ _ _ rfl).magnitude_pos h
  have htop : 0 < topRank := by decide
  cases s with
  | negative =>
    show -topRank < -magnitude m e ∧ -magnitude m e < topRank
    omega
  | positive =>
    show -topRank < magnitude m e ∧ magnitude m e < topRank
    omega

theorem some_lt_eq {a b : Int} (h : a < b) : some Ordering.lt = some (compare a b) := by
  rw [Int.compare_eq_lt.mpr h]

theorem some_gt_eq {a b : Int} (h : b < a) : some Ordering.gt = some (compare a b) := by
  rw [Int.compare_eq_gt.mpr h]

theorem compare_neg_neg (a b : Int) : compare (-a) (-b) = (compare a b).swap := by
  rw [Int.compare_swap]
  rcases Int.lt_trichotomy a b with h | rfl | h
  · rw [Int.compare_eq_gt.mpr h, Int.compare_eq_gt.mpr (by omega)]
  · rw [Int.compare_eq_eq.mpr rfl, Int.compare_eq_eq.mpr rfl]
  · rw [Int.compare_eq_lt.mpr h, Int.compare_eq_lt.mpr (by omega)]

/-- Parts compare as their positions. -/
theorem compare_position {u v : UnpackedFloat} (hu : Packable u) (hv : Packable v) (nu : u.isNaN = false)
    (nv : v.isNaN = false) : u.compare v = some (compare (position u) (position v)) := by
  cases u with
  | notANumber => cases nu
  | infinity s =>
    cases v with
    | notANumber => cases nv
    | infinity t => cases s <;> cases t <;> rfl
    | zero t => cases s <;> rfl
    | finite t n f hn =>
      cases s with
      | negative => exact some_lt_eq (position_finite_bounds hv).1
      | positive => exact some_gt_eq (position_finite_bounds hv).2
  | zero s =>
    cases v with
    | notANumber => cases nv
    | infinity t => cases t <;> rfl
    | zero t => rfl
    | finite t n f hn =>
      cases t with
      | negative => exact some_gt_eq (position_negative hv)
      | positive => exact some_lt_eq (position_positive hv)
  | finite s m e hm =>
    cases v with
    | notANumber => cases nv
    | infinity t =>
      cases t with
      | negative => cases s <;> exact some_gt_eq (position_finite_bounds hu).1
      | positive => cases s <;> exact some_lt_eq (position_finite_bounds hu).2
    | zero t =>
      cases s with
      | negative => exact some_lt_eq (position_negative hu)
      | positive => exact some_gt_eq (position_positive hu)
    | finite t n f hn =>
      have hcompare := (hu _ _ _ _ rfl).compare_magnitude (hv _ _ _ _ rfl)
      cases s with
      | negative =>
        cases t with
        | negative => exact congrArg some ((congrArg Ordering.swap hcompare).trans (compare_neg_neg _ _).symm)
        | positive => exact some_lt_eq (Int.lt_trans (position_negative hu) (position_positive hv))
      | positive =>
        cases t with
        | negative => exact some_gt_eq (Int.lt_trans (position_negative hv) (position_positive hu))
        | positive => exact congrArg some hcompare

theorem compare_unpack {x y : Float} (hx : x.isNaN = false) (hy : y.isNaN = false) :
    x.toModel.unpack.compare y.toModel.unpack = some (compare (rank x) (rank y)) := by
  rw [rank_eq_position, rank_eq_position]
  exact compare_position (packable_unpack x) (packable_unpack y) hx hy

/-- Nothing compares with NaN. -/
theorem compare_nan_left {u : UnpackedFloat} (v : UnpackedFloat) (h : u.isNaN = true) : u.compare v = none := by
  cases u <;> first | rfl | cases h

theorem compare_nan_right (u : UnpackedFloat) {v : UnpackedFloat} (h : v.isNaN = true) : u.compare v = none := by
  cases v <;> first | (cases u <;> rfl) | cases h

/-! ## The order of doubles -/

section Order

variable {x y : Float}

theorem lt_iff_compare : x < y ↔ x.toModel.unpack.compare y.toModel.unpack = some .lt := by
  show decide (UnpackedFloat.lt _ _ = true) = true ↔ _
  rw [decide_eq_true_iff]
  exact beq_iff_eq

theorem le_iff_compare : x ≤ y ↔ (x.toModel.unpack.compare y.toModel.unpack).any (·.isLE) = true :=
  decide_eq_true_iff

theorem beq_iff_compare : (x == y) = true ↔ x.toModel.unpack.compare y.toModel.unpack = some .eq := by
  show UnpackedFloat.beq _ _ = true ↔ _
  exact beq_iff_eq

/-- Only numbers compare. -/
theorem isNaN_of_compare {o : Ordering} (h : x.toModel.unpack.compare y.toModel.unpack = some o) :
    x.isNaN = false ∧ y.isNaN = false := by
  constructor
  · cases hx : x.isNaN with
    | false => rfl
    | true => rw [compare_nan_left _ hx] at h; cases h
  · cases hy : y.isNaN with
    | false => rfl
    | true => rw [compare_nan_right _ hy] at h; cases h

theorem isNaN_of_lt (h : x < y) : x.isNaN = false ∧ y.isNaN = false := isNaN_of_compare (lt_iff_compare.mp h)

theorem isNaN_of_le (h : x ≤ y) : x.isNaN = false ∧ y.isNaN = false := by
  obtain ⟨o, ho, -⟩ := (Option.any_eq_true _ _).mp (le_iff_compare.mp h)
  exact isNaN_of_compare ho

theorem lt_iff_rank (hx : x.isNaN = false) (hy : y.isNaN = false) : x < y ↔ rank x < rank y := by
  rw [lt_iff_compare, compare_unpack hx hy, Option.some_inj, Int.compare_eq_lt]

theorem not_lt_of_lt (h : x < y) : ¬ y < x := by
  obtain ⟨hx, hy⟩ := isNaN_of_lt h
  rw [lt_iff_rank hx hy] at h
  rw [lt_iff_rank hy hx]
  omega

theorem le_iff_rank (hx : x.isNaN = false) (hy : y.isNaN = false) : x ≤ y ↔ rank x ≤ rank y := by
  rw [le_iff_compare, compare_unpack hx hy, Option.any_some, Int.isLE_compare]

theorem beq_iff_rank (hx : x.isNaN = false) (hy : y.isNaN = false) : (x == y) = true ↔ rank x = rank y := by
  rw [beq_iff_compare, compare_unpack hx hy, Option.some_inj, Int.compare_eq_eq]

/-- What is smaller than something is a number, and so is that. -/
theorem lt_iff_numbers : x < y ↔ x.isNaN = false ∧ y.isNaN = false ∧ rank x < rank y := by
  constructor
  · intro h
    obtain ⟨hx, hy⟩ := isNaN_of_lt h
    exact ⟨hx, hy, (lt_iff_rank hx hy).mp h⟩
  · rintro ⟨hx, hy, h⟩
    exact (lt_iff_rank hx hy).mpr h

/-- Only numbers are equal to something. -/
theorem beq_iff_numbers : (x == y) = true ↔ x.isNaN = false ∧ y.isNaN = false ∧ rank x = rank y := by
  constructor
  · intro h
    obtain ⟨hx, hy⟩ := isNaN_of_compare (beq_iff_compare.mp h)
    exact ⟨hx, hy, (beq_iff_rank hx hy).mp h⟩
  · rintro ⟨hx, hy, h⟩
    exact (beq_iff_rank hx hy).mpr h

theorem le_self (hx : x.isNaN = false) : x ≤ x := (le_iff_rank hx hx).mpr (Int.le_refl _)

theorem le_trans {z : Float} (h : x ≤ y) (h' : y ≤ z) : x ≤ z := by
  obtain ⟨hx, hy⟩ := isNaN_of_le h
  have hz := (isNaN_of_le h').2
  rw [le_iff_rank hx hy] at h
  rw [le_iff_rank hy hz] at h'
  rw [le_iff_rank hx hz]
  omega

end Order

end Number
end ParetoSweep
