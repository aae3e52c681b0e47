import ParetoSweep.Proofs.Number.Rounding

/-!
# Doubles under addition

What the search relies on when it subtracts the sides of a constraint, adds up violations and steps through a domain:
differences of numbers in strict order and sums of numbers that are not negative are numbers (`isNaN_sub`,
`isNaN_total`), and adding what is not negative never leads to a smaller double (`rank_le_add`).
-/

namespace ParetoSweep
namespace Number

open Float.Model (UnpackedFloat)
open Float.Model.UnpackedFloat

/-! ## Arithmetic without NaN -/

theorem isNaN_unpack_packComponents {b : BitVec 11} (hb : b ≠ -1#11) (s : Sign) (m : BitVec 52) :
    (UnpackedFloat.unpack .binary64 (packComponents .binary64 s b m)).isNaN = false := by
  unfold UnpackedFloat.unpack
  simp only [unpackMantissa_packComponents, unpackExponent_packComponents]
  rw [if_neg hb]
  split
  · split <;> rfl
  · rfl

/-- Packing makes no NaN and loses none. -/
theorem isNaN_pack : ∀ u : UnpackedFloat, (Float.Model.pack u).unpack.isNaN = u.isNaN
  | .notANumber => rfl
  | .infinity s => by cases s <;> rfl
  | .zero s => by cases s <;> rfl
  | .finite s m e h => by
    show (UnpackedFloat.unpack .binary64 (UnpackedFloat.pack .binary64 _)).isNaN = false
    unfold UnpackedFloat.pack
    simp only [biased_eq]
    split
    · exact isNaN_pack (.infinity s)
    · rename_i hb
      split
      · refine isNaN_unpack_packComponents (fun h => ?_) _ _
        have := congrArg BitVec.toNat h
        simp at this hb
        omega
      · exact isNaN_unpack_packComponents (by decide) _ _

theorem isNaN_roundWithAccuracy (s : Sign) (n : Nat) (e : Int) :
    (roundWithAccuracy .binary64 s n e .exact).isNaN = false := by
  unfold roundWithAccuracy
  dsimp only
  split <;> rfl

theorem isNaN_round (s : Sign) (n : Nat) (e : Int) : (UnpackedFloat.round .binary64 s n e).isNaN = false :=
  isNaN_roundWithAccuracy ..

theorem isNaN_normalize (n e : Int) (s : Sign) : (UnpackedFloat.normalize .binary64 n e s).isNaN = false := by
  unfold UnpackedFloat.normalize
  split
  · exact isNaN_round ..
  · rfl
  · exact isNaN_round ..

section Arithmetic

variable {x y : Float}

theorem isNaN_neg (x : Float) : (-x).isNaN = x.isNaN := by
  show (Float.Model.pack x.toModel.unpack.neg).unpack.isNaN = _
  rw [isNaN_pack]
  show _ = x.toModel.unpack.isNaN
  cases x.toModel.unpack <;> rfl

theorem isNaN_abs (x : Float) : x.abs.isNaN = x.isNaN := by
  show (Float.Model.pack x.toModel.unpack.abs).unpack.isNaN = _
  rw [isNaN_pack]
  show _ = x.toModel.unpack.isNaN
  cases x.toModel.unpack <;> rfl

/-- Absolute values are not negative. -/
theorem rank_abs_nonneg (x : Float) : 0 ≤ rank x.abs := by
  have hx := packable_unpack x
  rw [rank_eq_position]
  show 0 ≤ position (Float.Model.pack x.toModel.unpack.abs).unpack
  generalize x.toModel.unpack = u at *
  cases u with
  | notANumber => exact (by decide : 0 ≤ position (Float.Model.pack .notANumber).unpack)
  | infinity s => exact (by decide : 0 ≤ position (Float.Model.pack (.infinity .positive)).unpack)
  | zero s => exact (by decide : 0 ≤ position (Float.Model.pack (.zero .positive)).unpack)
  | finite s m e h =>
    have hst := hx _ _ _ _ rfl
    rw [UnpackedFloat.abs, unpack_pack_finite hst h]
    exact Int.le_of_lt (hst.magnitude_pos h)

theorem isNaN_add_eq (x y : Float) :
    (x + y).isNaN = (UnpackedFloat.add .binary64 x.toModel.unpack y.toModel.unpack).isNaN := isNaN_pack _

theorem rank_add_eq (x y : Float) :
    rank (x + y) = position (Float.Model.pack (UnpackedFloat.add .binary64 x.toModel.unpack y.toModel.unpack)).unpack :=
  rank_eq_position _

theorem isNaN_sub_eq (x y : Float) :
    (x - y).isNaN = (UnpackedFloat.sub .binary64 x.toModel.unpack y.toModel.unpack).isNaN := isNaN_pack _

/-- The difference of numbers of different ranks is a number. -/
theorem isNaN_sub (hx : x.isNaN = false) (hy : y.isNaN = false) (h : rank x ≠ rank y) : (x - y).isNaN = false := by
  rw [isNaN_sub_eq]
  rw [rank_eq_position, rank_eq_position] at h
  change x.toModel.unpack.isNaN = false at hx
  change y.toModel.unpack.isNaN = false at hy
  generalize x.toModel.unpack = u at *
  generalize y.toModel.unpack = v at *
  cases u with
  | notANumber => cases hx
  | infinity s =>
    cases v with
    | notANumber => cases hy
    | infinity t => cases s <;> cases t <;> first | rfl | exact absurd rfl h
    | zero t => rfl
    | finite t n f hn => rfl
  | zero s =>
    cases v with
    | notANumber => cases hy
    | infinity t => rfl
    | zero t => exact absurd rfl h
    | finite t n f hn => rfl
  | finite s m e hm =>
    cases v with
    | notANumber => cases hy
    | infinity t => rfl
    | zero t => rfl
    | finite t n f hn => exact isNaN_normalize ..

theorem position_normalize_pos {n : Int} (hn : 0 < n) (e : Int) (s : Sign) :
    position (Float.Model.pack (UnpackedFloat.normalize .binary64 n e s)).unpack = nearest n.toNat e := by
  unfold UnpackedFloat.normalize
  rw [Int.compare_eq_gt.mpr hn]
  exact position_round .positive (by omega) e

theorem position_normalize_neg {n : Int} (hn : n < 0) (e : Int) (s : Sign) :
    position (Float.Model.pack (UnpackedFloat.normalize .binary64 n e s)).unpack = -nearest (-n).toNat e := by
  unfold UnpackedFloat.normalize
  rw [Int.compare_eq_lt.mpr hn]
  exact position_round .negative (by omega) e

/-- A stored mantissa at a smaller exponent. -/
theorem nearest_aligned {m : Nat} {e f : Int} (h : Stored m e) (hm : 0 < m) (hf : f ≤ e) :
    nearest (m <<< (e - f).toNat) f = magnitude m e := by
  have hself := nearest_stored h hm (e - f).toNat
  rw [Nat.shiftLeft_eq]
  rwa [show e - ((e - f).toNat : Int) = f by omega] at hself

theorem nearest_nonneg {n : Nat} {e : Int} : 0 ≤ nearest n e := by
  have := (lastPlace_ge n e).1
  unfold nearest magnitude topRank
  omega

/-- Adding a positive whole number does not lead to a smaller double. -/
theorem position_le_normalize_add {s : Sign} {m : Nat} {e f : Int} (h : Stored m e) (hm : 0 < m) (hf : f ≤ e) (b : Nat)
    (z : Sign) : s.apply (magnitude m e) ≤
      position (Float.Model.pack (UnpackedFloat.normalize .binary64
        (s.apply (m <<< (e - f).toNat : Nat) + b) f z)).unpack := by
  have hself := nearest_aligned h hm hf
  have ha : 0 < m <<< (e - f).toNat := by
    rw [Nat.shiftLeft_eq]
    exact Nat.mul_pos hm (Nat.two_pow_pos _)
  have hpos := h.magnitude_pos hm
  generalize m <<< (e - f).toNat = a at *
  cases s with
  | positive =>
    show magnitude m e ≤ _
    rw [show Sign.positive.apply a + b = ((a + b : Nat) : Int) from rfl, position_normalize_pos (by omega)]
    rw [← hself]
    exact nearest_mono ha (by omega) f
  | negative =>
    show -magnitude m e ≤ _
    rw [show Sign.negative.apply a + b = -(a : Int) + b from rfl]
    rcases Int.lt_trichotomy (-(a : Int) + b) 0 with hlt | heq | hgt
    · rw [position_normalize_neg hlt, ← hself]
      have := nearest_mono (n := (-(-(a : Int) + b)).toNat) (m := a) (by omega) (by omega) f
      omega
    · rw [heq]
      have hzero : position (Float.Model.pack (UnpackedFloat.normalize .binary64 0 f z)).unpack = 0 := by
        rw [show UnpackedFloat.normalize .binary64 0 f z = .zero z from rfl, unpack_pack (fun _ _ _ _ h => by cases h)]
        rfl
      omega
    · rw [position_normalize_pos hgt]
      have := @nearest_nonneg (-(a : Int) + b).toNat f
      omega

/-- A sum that needs no rounding. -/
theorem add_eq_or_finite {u v : UnpackedFloat} (hu : Packable u) (hv : 0 ≤ position v)
    (h : (UnpackedFloat.add .binary64 u v).isNaN = false) :
    UnpackedFloat.add .binary64 u v = u ∨ (UnpackedFloat.add .binary64 u v = v ∧ position u ≤ position v) ∨
      ∃ s m e hm t n f hn, u = .finite s m e hm ∧ v = .finite t n f hn := by
  cases u with
  | notANumber => cases h
  | infinity s =>
    cases v with
    | notANumber => cases h
    | infinity t => cases s <;> cases t <;> first | exact Or.inl rfl | cases h
    | zero t => exact Or.inl rfl
    | finite t n f hn => exact Or.inl rfl
  | zero s =>
    cases v with
    | notANumber => cases h
    | infinity t => exact Or.inr (Or.inl ⟨rfl, hv⟩)
    | zero t =>
      cases s with
      | positive => cases t <;> exact Or.inl rfl
      | negative => cases t <;> exact Or.inr (Or.inl ⟨rfl, hv⟩)
    | finite t n f hn => exact Or.inr (Or.inl ⟨rfl, hv⟩)
  | finite s m e hm =>
    cases v with
    | notANumber => cases h
    | infinity t =>
      cases t with
      | negative => exact absurd hv (by decide)
      | positive => exact Or.inr (Or.inl ⟨rfl, Int.le_of_lt (position_finite_bounds hu).2⟩)
    | zero t => exact Or.inl rfl
    | finite t n f hn => exact Or.inr (Or.inr ⟨s, m, e, hm, t, n, f, hn, rfl, rfl⟩)

/-- Adding what is not negative does not lead to a smaller double. -/
theorem rank_le_add (hy : 0 ≤ rank y) (h : (x + y).isNaN = false) : rank x ≤ rank (x + y) := by
  have hx' := packable_unpack x
  have hy' := packable_unpack y
  rw [rank_eq_position] at hy
  rw [rank_eq_position, rank_add_eq]
  rw [isNaN_add_eq] at h
  rcases add_eq_or_finite hx' hy h with heq | ⟨heq, hle⟩ | ⟨s, m, e, hm, t, n, f, hn, hu, hv⟩
  · exact Int.le_of_eq (by rw [heq, unpack_pack hx'])
  · rw [heq, unpack_pack hy']
    exact hle
  · rw [hv] at hy hy' ⊢
    rw [hu] at hx' ⊢
    cases t with
    | negative => exact absurd hy (Int.not_le.mpr (position_negative hy'))
    | positive => exact position_le_normalize_add (hx' _ _ _ _ rfl) hm (Int.min_le_left e f) _ _

theorem isNaN_left_of_add (h : (x + y).isNaN = false) : x.isNaN = false := by
  rw [isNaN_add_eq] at h
  show x.toModel.unpack.isNaN = false
  generalize x.toModel.unpack = u at *
  cases u with
  | notANumber => exact h
  | infinity s => rfl
  | zero s => rfl
  | finite s m e hm => rfl

theorem le_of_add_le {z : Float} (hy : 0 ≤ rank y) (h : x + y ≤ z) : x ≤ z := by
  obtain ⟨hsum, hz⟩ := isNaN_of_le h
  have hx := isNaN_left_of_add hsum
  rw [le_iff_rank hsum hz] at h
  exact (le_iff_rank hx hz).mpr (Int.le_trans (rank_le_add hy hsum) h)

/-- A sum that differs from the left side is larger. -/
theorem lt_add_of_beq_eq_false (hy : 0 ≤ rank y) (hsum : (x + y).isNaN = false) (h : (x + y == x) = false) :
    x < x + y := by
  have hx := isNaN_left_of_add hsum
  have hle := rank_le_add hy hsum
  rw [← Bool.not_eq_true, beq_iff_rank hsum hx] at h
  rw [lt_iff_rank hx hsum]
  omega

/-- The sum of numbers that are not negative is a number. -/
theorem isNaN_add (hx : x.isNaN = false) (hy : y.isNaN = false) (px : 0 ≤ rank x) (py : 0 ≤ rank y) :
    (x + y).isNaN = false := by
  rw [isNaN_add_eq]
  rw [rank_eq_position] at px py
  change x.toModel.unpack.isNaN = false at hx
  change y.toModel.unpack.isNaN = false at hy
  generalize x.toModel.unpack = u at *
  generalize y.toModel.unpack = v at *
  cases u with
  | notANumber => cases hx
  | infinity s =>
    cases s with
    | negative => exact absurd px (by decide)
    | positive =>
      cases v with
      | notANumber => cases hy
      | infinity t =>
        cases t with
        | negative => exact absurd py (by decide)
        | positive => rfl
      | zero t => rfl
      | finite t n f hn => rfl
  | zero s =>
    cases v with
    | notANumber => cases hy
    | infinity t => rfl
    | zero t => cases s <;> cases t <;> rfl
    | finite t n f hn => rfl
  | finite s m e hm =>
    cases v with
    | notANumber => cases hy
    | infinity t => rfl
    | zero t => rfl
    | finite t n f hn => exact isNaN_normalize ..

/-- Adding up numbers that are not negative gives such a number again. -/
theorem isNaN_foldl_add (xs : List Float) (h : ∀ x ∈ xs, x.isNaN = false ∧ 0 ≤ rank x) (hy : y.isNaN = false)
    (py : 0 ≤ rank y) : (xs.foldl (· + ·) y).isNaN = false := by
  induction xs generalizing y with
  | nil => exact hy
  | cons x xs ih =>
    obtain ⟨hx, px⟩ := h x List.mem_cons_self
    have hsum : (y + x).isNaN = false := isNaN_add hy hx py px
    have hrank : rank y ≤ rank (y + x) := rank_le_add px hsum
    exact ih (fun z hz => h z (List.mem_cons_of_mem x hz)) hsum (Int.le_trans py hrank)

/-- A total of numbers that are not negative is a number. -/
theorem isNaN_total {xs : List Float} (h : ∀ x ∈ xs, x.isNaN = false ∧ 0 ≤ rank x) : (total xs).isNaN = false :=
  isNaN_foldl_add xs h (by decide) (by decide)

end Arithmetic

end Number
end ParetoSweep
