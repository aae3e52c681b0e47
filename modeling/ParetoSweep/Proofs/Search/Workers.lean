import ParetoSweep.Proofs.Search.Run
import ParetoSweep.Proofs.Search.Size
import ParetoSweep.Search.Workers

/-!
# What the settings of a search have no influence on

A team that is reliable lists and evaluates what the search without a team does (`runBy_eq_run`). Of the settings the
split threshold drops out because the whole cube is the patterns counting up, however it is split (`Cube.range_zero`),
and the seed because a problem without random numbers has one candidate for each assignment (`evaluateAll_eq_map`). So
two searches of one problem agree if they take the same random numbers, or if there are none (`runBy_eq_runBy`).
-/

namespace ParetoSweep

/-! ## Reliable teams -/

section Reliable

variable {team : Team} {c : Cube}

theorem Team.reliable_lastFirst : Team.lastFirst.Reliable where
  join_eq _ _ := rfl
  collect_eq f items := by simp [lastFirst]

/-- However a range is shared out, it is the same list. -/
theorem Cube.rangeBy_eq_range (h : team.Reliable) (parallel : Bool) (c : Cube) (k : Nat) (start : UInt64) :
    c.rangeBy team parallel k start = c.range k start := by
  induction k generalizing start with
  | zero => rfl
  | succ k ih =>
    rw [rangeBy, range]
    split
    · rfl
    · cases parallel <;> simp [h.join_eq, ih]

theorem Cube.assignmentsBy_eq_assignments (h : team.Reliable) (parallel : Bool) (c : Cube) (host : Host) :
    c.assignmentsBy team parallel host = c.assignments host := by
  unfold assignmentsBy assignments
  rw [rangeBy_eq_range h]

namespace Search

theorem listingBy_eq_listing (h : team.Reliable) (strategy : Strategy) (p : Problem) (c : Config) (host : Host) :
    listingBy team strategy p c host = listing strategy p c host := by
  cases strategy with
  | binary => exact Cube.assignmentsBy_eq_assignments h ..
  | mixed => rfl

/-- The stages of a search by a reliable team are those of a search without a team. -/
theorem runBy_eq_run {staff : Option Nat → Team} (h : ∀ workers, (staff workers).Reliable) (p : Problem) (c : Config)
    (host : Host) : runBy staff p c host = run p c host := by
  have hevaluate : ∀ as, evaluateAllBy (staff c.workers) p c host as = evaluateAll p c host as := by
    intro as
    simp only [evaluateAllBy, evaluateAll, forEach, (h c.workers).collect_eq]
  unfold runBy run
  simp only [listingBy_eq_listing (h c.workers), hevaluate]

end Search

end Reliable

/-! ## Settings -/

section Settings

variable {p : Problem} {c₁ c₂ : Config} {host₁ host₂ : Host}

namespace Search

/-- Whether there is room for the assignments is all that a listing takes from the machine and the settings. -/
theorem listing_congr (hroom : ∀ n, Grid.size p.decisions = .ok n → (host₁.capacity < n ↔ host₂.capacity < n)) :
    listing (Strategy.ofProblem p) p c₁ host₁ = listing (Strategy.ofProblem p) p c₂ host₂ := by
  unfold Strategy.ofProblem
  cases hall : p.allBinary with
  | true =>
    rw [if_pos rfl]
    show Cube.assignments ⟨p.dimension, _⟩ host₁ = Cube.assignments ⟨p.dimension, _⟩ host₂
    unfold Cube.assignments
    dsimp only
    by_cases hdim : 63 ≤ p.dimension
    · rw [if_pos hdim, if_pos hdim]
    · have hfits : 2 ^ p.dimension ≤ countLimit :=
        Nat.le_trans (Nat.pow_le_pow_right (by decide) (by omega : p.dimension ≤ 62)) (by decide)
      have hsize := Grid.size_replicate hfits
      rw [← decisions_eq_replicate hall] at hsize
      rw [if_neg hdim, if_neg hdim, Cube.range_zero _ (by show p.dimension < 64; omega),
        Cube.range_zero _ (by show p.dimension < 64; omega), Nat.one_shiftLeft]
      simp only [hroom _ hsize]
  | false =>
    rw [if_neg Bool.false_ne_true]
    show Grid.assignments p.decisions host₁ = Grid.assignments p.decisions host₂
    unfold Grid.assignments
    cases hsize : Grid.size p.decisions with
    | error f => rfl
    | ok n => simp only [ok_bind, hroom n hsize]

/-- The candidates are the same if the random numbers are, or if there are none. -/
theorem evaluateAll_congr (hrandom : (∃ s, c₁.seed = some s ∧ c₂.seed = some s ∧
      c₁.streamPerCandidate = c₂.streamPerCandidate) ∨ p.RandomFree) (as : List Assignment) :
    evaluateAll p c₁ host₁ as = evaluateAll p c₂ host₂ as := by
  rcases hrandom with ⟨s, h₁, h₂, hstreams⟩ | hfree
  · simp [evaluateAll, h₁, h₂, hstreams]
  · rw [evaluateAll_eq_map hfree c₁ host₁ as (.ofSeed 0), evaluateAll_eq_map hfree c₂ host₂ as (.ofSeed 0)]

/-- **Settings do not show in what a search finds.** Two sound configurations that admit the problem fail in the same
way or find the same, in the same order, if both take their random numbers from one seed in the same manner or if no
formula draws any, whatever the split threshold, the workers and who lists what. -/
theorem runBy_eq_runBy {staff : Option Nat → Team} (hstaff : ∀ workers, (staff workers).Reliable)
    (hsound₁ : c₁.defect? = none) (hsound₂ : c₂.defect? = none)
    (hlimit₁ : p.dimension < (Strategy.ofProblem p).limit c₁) (hlimit₂ : p.dimension < (Strategy.ofProblem p).limit c₂)
    (hroom : ∀ n, Grid.size p.decisions = .ok n → (host₁.capacity < n ↔ host₂.capacity < n))
    (hrandom : (∃ s, c₁.seed = some s ∧ c₂.seed = some s ∧ c₁.streamPerCandidate = c₂.streamPerCandidate) ∨
      p.RandomFree) : runBy staff p c₁ host₁ = runBy staff p c₂ host₂ := by
  rw [runBy_eq_run hstaff, runBy_eq_run hstaff]
  have happrove : approve p c₁ = approve p c₂ := by
    cases hproblem : p.defect? with
    | some defect => rw [approve_of_problem_defect hsound₁ hproblem, approve_of_problem_defect hsound₂ hproblem]
    | none =>
      rw [approve_eq_ok_iff.mpr ⟨hsound₁, hproblem, hlimit₁, rfl⟩,
        approve_eq_ok_iff.mpr ⟨hsound₂, hproblem, hlimit₂, rfl⟩]
  have hevaluate : evaluateAll p c₁ host₁ = evaluateAll p c₂ host₂ := funext (evaluateAll_congr hrandom)
  unfold run
  rw [happrove, hevaluate]
  cases hok : approve p c₂ with
  | error f => rfl
  | ok strategy =>
    obtain ⟨-, -, -, rfl⟩ := approve_eq_ok_iff.mp hok
    have hlisting : listing (Strategy.ofProblem p) p c₁ host₁ = listing (Strategy.ofProblem p) p c₂ host₂ :=
      listing_congr hroom
    rw [ok_bind, ok_bind, hlisting]

/-- Three yes/no decisions and an objective with random numbers. -/
def threeDraws : Problem where
  name := "draws"
  decisions := [.binary, .binary, .binary]
  objectives := [⟨.minimize, "x1+random()*x2"⟩, ⟨.maximize, "x3"⟩]
  constraints := []

theorem runBy_eq_runBy_threeDraws :
    let shared := { Config.standard with seed := some 7, streamPerCandidate := true }
    runBy (fun _ => .lastFirst) threeDraws { shared with splitThreshold := 2, workers := some 3 } .standard =
      runBy (fun _ => .lastFirst) threeDraws { shared with parallelListing := false } .standard :=
  runBy_eq_runBy (fun _ => Team.reliable_lastFirst) (by decide) (by decide) (by decide) (by decide)
    (fun _ _ => Iff.rfl) (Or.inl ⟨7, rfl, rfl, rfl⟩)

end Search

end Settings

end ParetoSweep
