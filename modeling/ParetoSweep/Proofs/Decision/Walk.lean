import ParetoSweep.Decision.Walk
import ParetoSweep.Proofs.Number.Arithmetic

/-!
# The points of a domain

A variable is meant to range over its points (`Variable.Point`). The walk through a domain that does not get stuck
meets exactly these (`mem_through`) and in increasing order (`pairwise_through`). For real variables this needs that
the number of steps which bounds the walk is never reached (`Enough`): a step that does not get stuck leads to a double
of higher rank.
-/

namespace ParetoSweep

open Number

/-! ## Points and their order -/

/-- The double that `k` steps lead to. -/
def level (lower increment : Float) : Nat → Float
  | 0 => lower
  | k + 1 => level lower increment k + increment

/-- The points of a domain. -/
inductive Variable.Point : Variable → Value → Prop where
  | binary (bit : Bool) : Point .binary (.binary bit)
  | integer {lower upper n : Int64} (hlower : lower ≤ n) (hupper : n ≤ upper) :
    Point (.integer lower upper) (.integer n)
  | real {lower upper increment : Float} (k : Nat) (h : level lower increment k ≤ upper) :
    Point (.real lower upper increment) (.real (level lower increment k))

/-- The order in which values of one kind are tried. -/
def Value.Before : Value → Value → Prop
  | .binary a, .binary b => a = false ∧ b = true
  | .integer m, .integer n => m < n
  | .real x, .real y => x < y
  | _, _ => False

namespace Walk

/-! ## Climbing -/

section Climb

variable {upper increment x : Float} {steps : Nat} {v : Value}

theorem level_succ (x increment : Float) (k : Nat) :
    level x increment (k + 1) = level (x + increment) increment k := by
  induction k with
  | zero => rfl
  | succ k ih => rw [level, ih]; rfl

theorem le_of_level_le (hinc : 0 ≤ rank increment) {k : Nat} (h : level x increment k ≤ upper) : x ≤ upper := by
  induction k with
  | zero => exact h
  | succ k ih => exact ih (le_of_add_le hinc h)

/-- The steps left reach beyond the upper bound. -/
def Enough (upper x : Float) (steps : Nat) : Prop := x ≤ upper → rank upper - rank x < steps

theorem Enough.step (hinc : 0 ≤ rank increment) (h : Enough upper x (steps + 1)) (hle : x ≤ upper)
    (hstuck : (x + increment == x) = false) : Enough upper (x + increment) steps := by
  intro hnext
  have hsum := (isNaN_of_le hnext).1
  have hlt := lt_add_of_beq_eq_false hinc hsum hstuck
  rw [lt_iff_rank (isNaN_of_le hle).1 hsum] at hlt
  have := h hle
  omega

theorem not_enough_zero (hle : x ≤ upper) : ¬ Enough upper x 0 := by
  intro h
  have hrank := (le_iff_rank (isNaN_of_le hle).1 (isNaN_of_le hle).2).mp hle
  have := h hle
  omega

theorem climb_of_not_le (hle : ¬ x ≤ upper) : climb upper increment steps x = ⟨[], false⟩ := by
  cases steps with
  | zero => rfl
  | succ steps => rw [climb, if_neg hle]

theorem climb_of_le (hle : x ≤ upper) : climb upper increment (steps + 1) x =
    if x + increment == x then ⟨[.real x], true⟩ else (climb upper increment steps (x + increment)).cons (.real x) := by
  rw [climb, if_pos hle]

theorem not_stuck_of_climb_eq_nil (h : (climb upper increment steps x).points = []) :
    (climb upper increment steps x).stuck = false := by
  cases steps with
  | zero => rfl
  | succ steps =>
    by_cases hle : x ≤ upper
    · rw [climb_of_le hle] at h
      split at h <;> cases h
    · rw [climb_of_not_le hle]

/-- A walk that does not get stuck meets what repeated addition leads to, up to the upper bound. -/
theorem mem_climb (hinc : 0 ≤ rank increment) (henough : Enough upper x steps)
    (hstuck : (climb upper increment steps x).stuck = false) :
    v ∈ (climb upper increment steps x).points ↔
      ∃ k, level x increment k ≤ upper ∧ v = .real (level x increment k) := by
  induction steps generalizing x with
  | zero =>
    have hle : ¬ x ≤ upper := fun hle => not_enough_zero hle henough
    rw [climb_of_not_le hle]
    exact ⟨fun h => (nomatch h), fun ⟨k, hk, _⟩ => absurd (le_of_level_le hinc hk) hle⟩
  | succ steps ih =>
    by_cases hle : x ≤ upper
    · rw [climb_of_le hle] at hstuck ⊢
      split at hstuck
      · cases hstuck
      · rename_i hne
        rw [if_neg hne]
        show v ∈ .real x :: _ ↔ _
        rw [List.mem_cons, ih (henough.step hinc hle (Bool.of_not_eq_true hne)) hstuck]
        constructor
        · rintro (rfl | ⟨k, hk, rfl⟩)
          · exact ⟨0, hle, rfl⟩
          · exact ⟨k + 1, by rwa [level_succ], by rw [level_succ]⟩
        · rintro ⟨k, hk, rfl⟩
          cases k with
          | zero => exact Or.inl rfl
          | succ k =>
            rw [level_succ] at hk ⊢
            exact Or.inr ⟨k, hk, rfl⟩
    · rw [climb_of_not_le hle]
      exact ⟨fun h => (nomatch h), fun ⟨k, hk, _⟩ => absurd (le_of_level_le hinc hk) hle⟩

theorem bounds_of_mem_climb (hinc : 0 ≤ rank increment) (h : v ∈ (climb upper increment steps x).points) :
    ∃ y, v = .real y ∧ x ≤ y ∧ y ≤ upper := by
  induction steps generalizing x with
  | zero => cases h
  | succ steps ih =>
    by_cases hle : x ≤ upper
    · have hx := (isNaN_of_le hle).1
      have hself : x ≤ x := (le_iff_rank hx hx).mpr (Int.le_refl _)
      rw [climb_of_le hle] at h
      split at h
      · cases List.mem_singleton.mp h
        exact ⟨x, rfl, hself, hle⟩
      · rcases List.mem_cons.mp h with rfl | h
        · exact ⟨x, rfl, hself, hle⟩
        · obtain ⟨y, rfl, hy, hyu⟩ := ih h
          exact ⟨y, rfl, le_of_add_le hinc hy, hyu⟩
    · rw [climb_of_not_le hle] at h
      cases h

theorem pairwise_climb (hinc : 0 ≤ rank increment) : (climb upper increment steps x).points.Pairwise Value.Before := by
  induction steps generalizing x with
  | zero => exact .nil
  | succ steps ih =>
    by_cases hle : x ≤ upper
    · rw [climb_of_le hle]
      split
      · exact List.pairwise_singleton ..
      · rename_i hne
        refine List.pairwise_cons.mpr ⟨fun v hv => ?_, ih⟩
        obtain ⟨y, rfl, hy, -⟩ := bounds_of_mem_climb hinc hv
        obtain ⟨hsum, hynan⟩ := isNaN_of_le hy
        have hx := (isNaN_of_le hle).1
        have hlt := lt_add_of_beq_eq_false hinc hsum (Bool.of_not_eq_true hne)
        show x < y
        rw [lt_iff_rank hx hsum] at hlt
        rw [le_iff_rank hsum hynan] at hy
        rw [lt_iff_rank hx hynan]
        omega
    · rw [climb_of_not_le hle]
      exact .nil

end Climb

/-! ## Integers -/

section Integers

variable {lower upper : Int64}

theorem toInt_integer {k : Nat} (hk : k < (upper.toInt - lower.toInt + 1).toNat) :
    (Int64.ofInt (lower.toInt + k)).toInt = lower.toInt + k := by
  have := lower.le_toInt
  have := upper.toInt_lt
  exact Int64.toInt_ofInt_of_le (by omega) (by omega)

theorem mem_integers {v : Value} : v ∈ integers lower upper ↔ ∃ n, lower ≤ n ∧ n ≤ upper ∧ v = .integer n := by
  unfold integers
  rw [List.mem_map]
  constructor
  · rintro ⟨k, hk, rfl⟩
    rw [List.mem_range] at hk
    have hint := toInt_integer hk
    refine ⟨_, ?_, ?_, rfl⟩
    · rw [Int64.le_iff_toInt_le, hint]
      omega
    · rw [Int64.le_iff_toInt_le, hint]
      omega
  · rintro ⟨n, hlower, hupper, rfl⟩
    rw [Int64.le_iff_toInt_le] at hlower hupper
    refine ⟨(n.toInt - lower.toInt).toNat, List.mem_range.mpr (by omega), ?_⟩
    rw [show lower.toInt + ((n.toInt - lower.toInt).toNat : Int) = n.toInt by omega, Int64.ofInt_toInt]

theorem pairwise_integers : (integers lower upper).Pairwise Value.Before := by
  unfold integers
  rw [List.pairwise_map]
  refine List.pairwise_lt_range.imp_of_mem fun {i j} hi hj hij => ?_
  show Int64.ofInt _ < Int64.ofInt _
  rw [Int64.lt_iff_toInt_lt, toInt_integer (List.mem_range.mp hi), toInt_integer (List.mem_range.mp hj)]
  omega

end Integers

/-! ## Domains -/

section Domains

variable {v : Variable} {x : Value}

/-- The increment that is added is not negative. -/
theorem rank_nonneg_of_pos {y : Float} (h : 0 < y) : 0 ≤ rank y := by
  have hrank := (lt_iff_rank (isNaN_of_lt h).1 (isNaN_of_lt h).2).mp h
  have hzero : rank 0 = 0 := by decide
  omega

/-- Rank differences bound the number of steps. -/
theorem enough_reals (lower upper : Float) : Enough upper lower ((rank upper - rank lower).toNat + 1) := by
  intro _
  omega

theorem not_stuck_of_through_eq_nil (h : (through v).points = []) : (through v).stuck = false := by
  cases v with
  | binary => rfl
  | integer lower upper => rfl
  | real lower upper increment =>
    simp only [through, reals] at h ⊢
    split
    · rename_i hpos
      rw [if_pos hpos] at h
      exact not_stuck_of_climb_eq_nil h
    · rfl

/-- The walk through a domain meets its points. -/
theorem mem_through (hpos : 0 < v.increment) (hstuck : (through v).stuck = false) :
    x ∈ (through v).points ↔ v.Point x := by
  cases v with
  | binary =>
    show x ∈ [.binary false, .binary true] ↔ _
    constructor
    · intro h
      simp only [List.mem_cons, List.not_mem_nil, or_false] at h
      rcases h with rfl | rfl <;> exact .binary _
    · rintro ⟨bit⟩
      cases bit <;> simp
  | integer lower upper =>
    show x ∈ integers lower upper ↔ _
    rw [mem_integers]
    constructor
    · rintro ⟨n, hlower, hupper, rfl⟩
      exact .integer hlower hupper
    · rintro (_ | ⟨hlower, hupper⟩)
      exact ⟨_, hlower, hupper, rfl⟩
  | real lower upper increment =>
    change 0 < increment at hpos
    simp only [through, reals, if_pos hpos] at hstuck ⊢
    rw [mem_climb (rank_nonneg_of_pos hpos) (enough_reals lower upper) hstuck]
    constructor
    · rintro ⟨k, hk, rfl⟩
      exact .real k hk
    · rintro (_ | _ | ⟨k, hk⟩)
      exact ⟨k, hk, rfl⟩

/-- The walk through a domain goes upwards. -/
theorem pairwise_through (v : Variable) : (through v).points.Pairwise Value.Before := by
  cases v with
  | binary => exact List.pairwise_pair.mpr ⟨rfl, rfl⟩
  | integer lower upper => exact pairwise_integers
  | real lower upper increment =>
    simp only [through, reals]
    split
    · rename_i hpos
      exact pairwise_climb (rank_nonneg_of_pos hpos)
    · exact .nil

end Domains

end Walk
end ParetoSweep
