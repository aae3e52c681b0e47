import ParetoSweep.Proofs.Decision.Empty

/-!
# The loop through a real domain ends

Whatever doubles the bounds and the increment are, the loop that adds the increment until the upper bound is passed or
the sum does not move comes to an end (`Walk.loopsThrough_reals`). `Loops` tells such a loop by its rounds, without any
bound on their number, and one loop has one outcome (`Loops.unique`). The walk has a bound and the same outcome
(`Walk.loops_climb`): a round that goes on leads to a double of higher rank, so there are no more rounds than doubles
between the bounds.
-/

namespace ParetoSweep

open Number

/-! ## Rounds -/

/-- From a number on, the loop visits the listed numbers and ends, stuck on the last of them or not. -/
inductive Loops (upper increment : Float) : Float → List Float → Bool → Prop where
  | past {x : Float} (h : ¬ x ≤ upper) : Loops upper increment x [] false
  | stuck {x : Float} (h : x ≤ upper) (hsame : (x + increment == x) = true) : Loops upper increment x [x] true
  | step {x : Float} {xs : List Float} {stuck : Bool} (h : x ≤ upper) (hmoves : (x + increment == x) = false)
    (hrest : Loops upper increment (x + increment) xs stuck) : Loops upper increment x (x :: xs) stuck

/-- The outcome of the loop through a real domain, which is not entered unless the increment is positive. -/
def LoopsThrough (lower upper increment : Float) (xs : List Float) (stuck : Bool) : Prop :=
  if 0 < increment then Loops upper increment lower xs stuck else xs = [] ∧ stuck = false

section Loops

variable {lower upper increment x : Float} {v : Value} {xs ys : List Float} {stuck stuck' : Bool} {steps : Nat}

/-- A loop has one outcome. -/
theorem Loops.unique (h : Loops upper increment x xs stuck) (h' : Loops upper increment x ys stuck') :
    ys = xs ∧ stuck' = stuck := by
  induction h generalizing ys stuck' with
  | past h =>
    cases h' with
    | past => exact ⟨rfl, rfl⟩
    | stuck hle => exact absurd hle h
    | step hle => exact absurd hle h
  | stuck h hsame =>
    cases h' with
    | past hle => exact absurd h hle
    | stuck => exact ⟨rfl, rfl⟩
    | step _ hmoves =>
      rw [hsame] at hmoves
      cases hmoves
  | step h hmoves _ ih =>
    cases h' with
    | past hle => exact absurd h hle
    | stuck _ hsame =>
      rw [hmoves] at hsame
      cases hsame
    | step _ _ hrest =>
      obtain ⟨rfl, rfl⟩ := ih hrest
      exact ⟨rfl, rfl⟩

/-- A loop that visits anything visits the number it starts with first. -/
theorem Loops.head (h : Loops upper increment x xs stuck) : xs = [] ∨ xs.head? = some x := by
  cases h with
  | past => exact Or.inl rfl
  | stuck => exact Or.inr rfl
  | step => exact Or.inr rfl

theorem LoopsThrough.head (h : LoopsThrough lower upper increment xs stuck) : xs = [] ∨ xs.head? = some lower := by
  unfold LoopsThrough at h
  split at h
  · exact h.head
  · exact Or.inl h.1

namespace Walk

/-! ## Rounds of a walk -/

/-- With enough steps a walk has the outcome of the loop. -/
theorem loops_climb (hinc : 0 ≤ rank increment) (henough : Enough upper x steps) :
    ∃ xs stuck, climb upper increment steps x = ⟨xs.map .real, stuck⟩ ∧ Loops upper increment x xs stuck := by
  induction steps generalizing x with
  | zero => exact ⟨[], false, rfl, .past fun hle => not_enough_zero hle henough⟩
  | succ steps ih =>
    by_cases hle : x ≤ upper
    · rw [climb_of_le hle]
      cases hsame : x + increment == x with
      | true => exact ⟨[x], true, rfl, .stuck hle hsame⟩
      | false =>
        obtain ⟨xs, stuck, hclimb, hloops⟩ := ih (henough.step hinc hle hsame)
        rw [if_neg Bool.false_ne_true, hclimb]
        exact ⟨x :: xs, stuck, rfl, .step hle hsame hloops⟩
    · rw [climb_of_not_le hle]
      exact ⟨[], false, rfl, .past hle⟩

/-- The loop through a real domain has an outcome, which is that of the walk, and no other. -/
theorem loopsThrough_iff (lower upper increment : Float) : ∃ xs stuck,
    through (.real lower upper increment) = ⟨xs.map .real, stuck⟩ ∧
      ∀ ys stuck', LoopsThrough lower upper increment ys stuck' ↔ ys = xs ∧ stuck' = stuck := by
  rw [through, reals]
  unfold LoopsThrough
  split
  case isTrue hpos =>
    obtain ⟨xs, stuck, hclimb, hloops⟩ := loops_climb (rank_nonneg_of_pos hpos) (enough_reals lower upper)
    refine ⟨xs, stuck, hclimb, fun ys stuck' => ⟨hloops.unique, ?_⟩⟩
    rintro ⟨rfl, rfl⟩
    exact hloops
  case isFalse => exact ⟨[], false, rfl, fun ys stuck' => Iff.rfl⟩

/-- A walk takes no more steps than it may. -/
theorem length_climb_le (upper increment x : Float) (steps : Nat) :
    (climb upper increment steps x).points.length ≤ steps := by
  induction steps generalizing x with
  | zero => exact Nat.le_refl 0
  | succ steps ih =>
    by_cases hle : x ≤ upper
    · rw [climb_of_le hle]
      split
      · exact Nat.le_add_left 1 steps
      · exact Nat.succ_le_succ (ih _)
    · rw [climb_of_not_le hle]
      exact Nat.zero_le _

theorem length_reals_le (lower upper increment : Float) :
    (reals lower upper increment).points.length ≤ (rank upper - rank lower).toNat + 1 := by
  rw [reals]
  split
  · exact length_climb_le ..
  · exact Nat.zero_le _

theorem bounds_of_mem_reals (h : v ∈ (reals lower upper increment).points) :
    ∃ y, v = .real y ∧ lower ≤ y ∧ y ≤ upper := by
  rw [reals] at h
  split at h
  case isTrue hpos => exact bounds_of_mem_climb (rank_nonneg_of_pos hpos) h
  case isFalse => cases h

/-- **The loop through a real domain ends**, also where bounds or increment are infinite or no numbers. It has one
outcome, and the walk has the same: it visits at most as many numbers as there are doubles between the bounds, the lower
bound first, then larger and larger ones that do not pass the upper bound. It visits none exactly if the domain is
counted as empty. -/
theorem loopsThrough_reals (lower upper increment : Float) : ∃ xs stuck,
    through (.real lower upper increment) = ⟨xs.map .real, stuck⟩ ∧
    (∀ ys stuck', LoopsThrough lower upper increment ys stuck' ↔ ys = xs ∧ stuck' = stuck) ∧
    xs.length ≤ (rank upper - rank lower).toNat + 1 ∧
    (xs = [] ∨ xs.head? = some lower) ∧
    xs.Pairwise (· < ·) ∧
    (∀ x ∈ xs, lower ≤ x ∧ x ≤ upper) ∧
    (xs = [] ↔ (Variable.real lower upper increment).domainSize? = some 0) := by
  obtain ⟨xs, stuck, hwalk, hloops⟩ := loopsThrough_iff lower upper increment
  have hlength := length_reals_le lower upper increment
  have hordered := pairwise_through (.real lower upper increment)
  have hempty := Variable.points_eq_nil_iff (.real lower upper increment)
  rw [← through, hwalk, List.length_map] at hlength
  rw [hwalk, List.pairwise_map] at hordered
  rw [hwalk, List.map_eq_nil_iff] at hempty
  refine ⟨xs, stuck, hwalk, hloops, hlength, ((hloops xs stuck).mpr ⟨rfl, rfl⟩).head, hordered, fun x hx => ?_, hempty⟩
  have hpoint : .real x ∈ (reals lower upper increment).points := by
    rw [← through, hwalk]
    exact List.mem_map_of_mem hx
  obtain ⟨y, heq, hlower, hupper⟩ := bounds_of_mem_reals hpoint
  cases heq
  exact ⟨hlower, hupper⟩

/-- In infinite steps from minus infinity: one number is visited, and then there is no number to go on with. -/
theorem loopsThrough_reals_infinite : through (.real (-infinity) 0 infinity) = ⟨[.real (-infinity)], false⟩ ∧
    LoopsThrough (-infinity) 0 infinity [-infinity] false ∧ -infinity ≤ -infinity ∧ -infinity ≤ 0 := by
  have hloops : LoopsThrough (-infinity) 0 infinity [-infinity] false := by
    rw [LoopsThrough, if_pos (by decide +kernel)]
    exact .step (by decide +kernel) (by decide +kernel) (.past (by decide +kernel))
  obtain ⟨xs, stuck, hwalk, hunique, -, -, -, hbounds, -⟩ := loopsThrough_reals (-infinity) 0 infinity
  obtain ⟨rfl, rfl⟩ := (hunique _ _).mp hloops
  exact ⟨hwalk, hloops, hbounds _ List.mem_cons_self⟩

end Walk

end Loops
end ParetoSweep
