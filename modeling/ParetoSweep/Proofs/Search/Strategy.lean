import ParetoSweep.Proofs.Search.Descent
import ParetoSweep.Proofs.Search.Splitter

/-!
# The choice of a strategy does not show

Yes/no decisions can be listed by splitting ranges of bit patterns and by descending from one decision to the next. Both
ways end at the grid of the decisions: the splitter by way of the cube (`Splitter.assignments?_eq_cube`,
`Cube.assignments_eq_grid`) and the descent directly (`Grid.assignmentsByDescent_eq`). So they list the same assignments
in the same order (`Splitter.assignments?_eq_descent`).
-/

namespace ParetoSweep

section Agreement

variable {team : Team} {host : Host} {n : Nat}

/-- Up to 62 yes/no decisions, their assignments can be counted. -/
theorem Grid.size_decisions (hn : n < 63) : size (List.replicate n .binary) = .ok (2 ^ n) := by
  have hpow : 2 ^ n ≤ 2 ^ 62 := Nat.pow_le_pow_right (by decide) (Nat.le_of_lt_succ hn)
  exact size_replicate (Nat.le_trans hpow (by decide))

/-- The bit patterns and the grid of the decisions are listed alike, and both listings have need of the same room. -/
theorem Cube.assignments_eq_grid {c : Cube} (hc : c.dimension < 63) (host : Host) :
    c.assignments host = Grid.assignments (List.replicate c.dimension .binary) host := by
  rw [assignments, Grid.assignments, Grid.size_decisions hc, ok_bind, if_neg (Nat.not_le.mpr hc), Nat.one_shiftLeft,
    combine_replicate, range_zero c (Nat.lt_succ_of_lt hc)]
  split <;> rfl

namespace Search

variable {p : Problem}

/-- Both strategies list the same for yes/no decisions. -/
theorem listing_decisions (hp : p.decisions = List.replicate n .binary) (hn : n < 63) (strategy : Strategy)
    (c : Config) (host : Host) : listing strategy p c host = Grid.assignments p.decisions host := by
  have hdim : p.dimension = n := by simp [Problem.dimension, hp]
  cases strategy with
  | binary =>
    have hcube : (Cube.ofThreshold p.dimension c.splitThreshold).dimension < 63 := by rwa [← hdim] at hn
    have hgrid := Cube.assignments_eq_grid hcube host
    rw [listing, hgrid, hp]
    exact congrArg (fun k => Grid.assignments (List.replicate k .binary) host) hdim
  | mixed => rfl

end Search

namespace Splitter

/-- **Splitting bit patterns and descending through the decisions list the same assignments in the same order**, with
any threshold and whoever lists the halves. If there is room for them, there are as many as either way to count them
says. So it makes no difference which strategy a problem is listed with. -/
theorem assignments?_eq_descent (hteam : team.Reliable) (s : Splitter) (hs : s.dimension < 63) (host : Host) :
    let decisions := List.replicate s.dimension.toNat Variable.binary
    s.assignments? team host = some (Grid.assignmentsByDescent decisions host) ∧
    (2 ^ s.dimension.toNat ≤ host.capacity → ∃ as, s.assignments? team host = some (.ok as) ∧
      s.size?.map UInt64.toNat = some as.length ∧ Grid.size decisions = .ok as.length) ∧
    ∀ (p : Problem) (c : Config) (strategy : Strategy), p.decisions = decisions →
      s.assignments? team host = some (Search.listingBy team strategy p c host) := by
  intro decisions
  have hdim := toNat_dimension_lt hs
  have hgrid : s.assignments? team host = some (Grid.assignments decisions host) := by
    rw [assignments?_eq_cube hteam]
    exact congrArg some (Cube.assignments_eq_grid hdim host)
  refine ⟨?_, ?_, ?_⟩
  · rw [hgrid, Grid.assignmentsByDescent_eq]
  · intro hroom
    refine ⟨Cube.patterns s.dimension.toNat, ?_, ?_, ?_⟩
    · rw [assignments?_of_lt hs hteam, if_neg (Nat.not_lt.mpr hroom)]
    · rw [size?_eq hs, Option.map_some, toNat_size hs, Cube.length_patterns]
    · rw [Grid.size_decisions hdim, Cube.length_patterns]
  · intro p c strategy hp
    rw [hgrid, Search.listingBy_eq_listing hteam, Search.listing_decisions hp hdim, hp]

theorem assignments?_eq_descent_threeDraws : ∃ as,
    ((ofDimension 3).withThreshold 0).assignments? .lastFirst .standard = some (.ok as) ∧
    Grid.size Search.threeDraws.decisions = .ok as.length ∧
    some (Search.listingBy .lastFirst .binary Search.threeDraws .standard .standard) = some (.ok as) ∧
    some (Search.listingBy .lastFirst .mixed Search.threeDraws .standard .standard) = some (.ok as) := by
  obtain ⟨-, hroom, hstrategy⟩ := assignments?_eq_descent Team.reliable_lastFirst ((ofDimension 3).withThreshold 0)
    (by decide) .standard
  obtain ⟨as, has, -, hsize⟩ := hroom (by decide)
  have hbinary := hstrategy Search.threeDraws .standard .binary rfl
  have hmixed := hstrategy Search.threeDraws .standard .mixed rfl
  exact ⟨as, has, hsize, hbinary.symm.trans has, hmixed.symm.trans has⟩

end Splitter

end Agreement

end ParetoSweep
