import ParetoSweep.Proofs.Decision.Walk

/-!
# The loop through a domain

A walk is bounded by a number of steps, the loop that it stands for is not: it adds the increment as long as the upper
bound is not passed and the sum has moved. The walk visits all that the loop does, and nothing else
(`Walk.visits_through`), so the loop ends; and it gets stuck exactly if the loop comes to a number that the increment
does not move (`Walk.stuck_through_iff_stalled`). None of this asks the bounds to be sound.
-/

namespace ParetoSweep

open Number

/-! ## Numbers that a loop comes to -/

/-- The increment does not move the number after `k` steps. -/
def Unmoved (lower increment : Float) (k : Nat) : Prop :=
  (level lower increment (k + 1) == level lower increment k) = true

/-- A loop that adds the increment to `lower` comes to the number after `k` steps: it has not passed the upper bound and
moved at every step before. -/
structure Reaches (lower upper increment : Float) (k : Nat) : Prop where
  bounded : ∀ j ≤ k, level lower increment j ≤ upper
  moves : ∀ j < k, ¬ Unmoved lower increment j

section Reaches

variable {lower upper increment : Float} {k : Nat}

@[simp] theorem unmoved_zero_iff : Unmoved lower increment 0 ↔ (lower + increment == lower) = true := Iff.rfl

theorem unmoved_succ_iff : Unmoved lower increment (k + 1) ↔ Unmoved (lower + increment) increment k := by
  unfold Unmoved
  rw [Walk.level_succ lower increment (k + 1), Walk.level_succ lower increment k]

@[simp] theorem reaches_zero_iff : Reaches lower upper increment 0 ↔ lower ≤ upper :=
  ⟨fun h => h.bounded 0 (Nat.le_refl 0), fun h => ⟨fun j hj => by rwa [Nat.le_zero.mp hj], fun j hj => nomatch hj⟩⟩

/-- The loop comes to a later number if it leaves the first one and comes there from the second one. -/
theorem reaches_succ_iff : Reaches lower upper increment (k + 1) ↔
    lower ≤ upper ∧ ¬ Unmoved lower increment 0 ∧ Reaches (lower + increment) upper increment k := by
  constructor
  · rintro ⟨hbounded, hmoves⟩
    refine ⟨hbounded 0 (Nat.zero_le _), hmoves 0 (Nat.succ_pos k), fun j hj => ?_, fun j hj => ?_⟩
    · rw [← Walk.level_succ]
      exact hbounded (j + 1) (Nat.succ_le_succ hj)
    · rw [← unmoved_succ_iff]
      exact hmoves (j + 1) (Nat.succ_lt_succ hj)
  · rintro ⟨hle, hmove, hbounded, hmoves⟩
    constructor
    · rintro (_ | j) hj
      · exact hle
      · rw [Walk.level_succ]
        exact hbounded j (Nat.le_of_succ_le_succ hj)
    · rintro (_ | j) hj
      · exact hmove
      · rw [unmoved_succ_iff]
        exact hmoves j (Nat.lt_of_succ_lt_succ hj)

theorem not_reaches_of_not_le (hle : ¬ lower ≤ upper) : ¬ Reaches lower upper increment k :=
  fun h => hle (h.bounded 0 (Nat.zero_le k))

end Reaches

/-- The loop through a domain comes to a number that the increment does not move. -/
def Variable.Stalled : Variable → Prop
  | .real lower upper increment => 0 < increment ∧ ∃ k, Reaches lower upper increment k ∧ Unmoved lower increment k
  | _ => False

/-- The values that the loop through a domain visits, in order. -/
def Variable.Visits : Variable → List Value → Prop
  | .binary, xs => xs = [.binary false, .binary true]
  | .integer lower upper, xs =>
    (∀ x, x ∈ xs ↔ ∃ n, lower ≤ n ∧ n ≤ upper ∧ x = .integer n) ∧ xs.Pairwise Value.Before
  | .real lower upper increment, xs => ∃ n, xs = (List.range n).map (fun k => .real (level lower increment k)) ∧
      ∀ k, k < n ↔ 0 < increment ∧ Reaches lower upper increment k

namespace Walk

section Climb

variable {upper increment x : Float} {steps : Nat}

/-- Climbing goes through the numbers that the loop comes to. -/
theorem visits_climb (hinc : 0 ≤ rank increment) (henough : Enough upper x steps) :
    ∃ n, (climb upper increment steps x).points = (List.range n).map (fun k => .real (level x increment k)) ∧
      ∀ k, k < n ↔ Reaches x upper increment k := by
  induction steps generalizing x with
  | zero =>
    have hle : ¬ x ≤ upper := fun hle => not_enough_zero hle henough
    exact ⟨0, rfl, fun k => ⟨fun hk => (nomatch hk), fun hk => absurd hk (not_reaches_of_not_le hle)⟩⟩
  | succ steps ih =>
    by_cases hle : x ≤ upper
    · rw [climb_of_le hle]
      cases hsame : x + increment == x with
      | true =>
        refine ⟨1, rfl, fun k => ?_⟩
        cases k with
        | zero => simp [hle]
        | succ k => simp [reaches_succ_iff, hsame]
      | false =>
        obtain ⟨n, hpoints, hreaches⟩ := ih (henough.step hinc hle hsame)
        refine ⟨n + 1, ?_, fun k => ?_⟩
        · rw [if_neg Bool.false_ne_true, cons, hpoints, List.range_succ_eq_map, List.map_cons, List.map_map]
          exact congrArg _ (List.map_congr_left fun k _ => congrArg Value.real (level_succ x increment k).symm)
        · cases k with
          | zero => simp [hle]
          | succ k => simp [reaches_succ_iff, hreaches, hle, hsame]
    · rw [climb_of_not_le hle]
      exact ⟨0, rfl, fun k => ⟨fun hk => (nomatch hk), fun hk => absurd hk (not_reaches_of_not_le hle)⟩⟩

/-- Climbing gets stuck if the loop comes to a number that is not moved. -/
theorem stuck_climb_iff (hinc : 0 ≤ rank increment) (henough : Enough upper x steps) :
    (climb upper increment steps x).stuck = true ↔ ∃ k, Reaches x upper increment k ∧ Unmoved x increment k := by
  induction steps generalizing x with
  | zero =>
    have hle : ¬ x ≤ upper := fun hle => not_enough_zero hle henough
    exact ⟨fun h => (nomatch h), fun ⟨k, hk, _⟩ => absurd hk (not_reaches_of_not_le hle)⟩
  | succ steps ih =>
    by_cases hle : x ≤ upper
    · rw [climb_of_le hle]
      cases hsame : x + increment == x with
      | true => exact ⟨fun _ => ⟨0, reaches_zero_iff.mpr hle, hsame⟩, fun _ => rfl⟩
      | false =>
        have hmoves : ¬ Unmoved x increment 0 := by simp [hsame]
        rw [if_neg Bool.false_ne_true]
        show (climb upper increment steps (x + increment)).stuck = true ↔ _
        rw [ih (henough.step hinc hle hsame)]
        constructor
        · rintro ⟨k, hk, hunmoved⟩
          exact ⟨k + 1, reaches_succ_iff.mpr ⟨hle, hmoves, hk⟩, unmoved_succ_iff.mpr hunmoved⟩
        · rintro ⟨k, hk, hunmoved⟩
          cases k with
          | zero => exact absurd hunmoved hmoves
          | succ k => exact ⟨k, (reaches_succ_iff.mp hk).2.2, unmoved_succ_iff.mp hunmoved⟩
    · rw [climb_of_not_le hle]
      exact ⟨fun h => (nomatch h), fun ⟨k, hk, _⟩ => absurd hk (not_reaches_of_not_le hle)⟩

end Climb

/-- The points of a walk are what the loop through the domain visits. -/
theorem visits_through (v : Variable) : v.Visits (through v).points := by
  cases v with
  | binary => rfl
  | integer lower upper => exact ⟨fun x => mem_integers, pairwise_integers⟩
  | real lower upper increment =>
    rw [through, reals]
    split
    case isTrue hpos =>
      obtain ⟨n, hpoints, hreaches⟩ := visits_climb (rank_nonneg_of_pos hpos) (enough_reals lower upper)
      exact ⟨n, hpoints, fun k => by rw [hreaches k, and_iff_right hpos]⟩
    case isFalse hpos => exact ⟨0, rfl, fun k => ⟨fun hk => absurd hk (Nat.not_lt_zero k), fun hk => absurd hk.1 hpos⟩⟩

/-- A walk gets stuck exactly if the loop stalls. -/
theorem stuck_through_iff_stalled (v : Variable) : (through v).stuck = true ↔ v.Stalled := by
  cases v with
  | binary => exact ⟨fun h => absurd h Bool.false_ne_true, fun h => h.elim⟩
  | integer lower upper => exact ⟨fun h => absurd h Bool.false_ne_true, fun h => h.elim⟩
  | real lower upper increment =>
    rw [through, reals, Variable.Stalled]
    split
    case isTrue hpos => rw [stuck_climb_iff (rank_nonneg_of_pos hpos) (enough_reals lower upper), and_iff_right hpos]
    case isFalse hpos => exact ⟨fun h => absurd h Bool.false_ne_true, fun h => absurd h.1 hpos⟩

end Walk
end ParetoSweep
