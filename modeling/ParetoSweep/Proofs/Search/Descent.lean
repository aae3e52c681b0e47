import ParetoSweep.Proofs.Decision.Visits
import ParetoSweep.Proofs.Search.Blocked
import ParetoSweep.Search.Descent

/-!
# A descent lists the grid

A descent works on one stack of chosen values and one list of assignments for all its levels, yet every part of it has a
simple account (`Lists`): it gives back the stack as it was, and it either notes down what is chosen with every one of
the combinations of the variables that are left, or fails as the listing of these does. One rule for each way to build
a descent gives the account of the whole (`lists_descend`).

With the loops through the domains described on their own, `assignments_cases` says which assignments a grid of any
variables has, and which failure stands in their place.
-/

namespace ParetoSweep

namespace Descent

/-! ## The loops of a level -/

section Loops

variable (each : Value → Action Unit)

theorem climb_eq (upper increment : Float) (lost : Failure) (steps : Nat) (x : Float) :
    climb upper increment lost each steps x = (do
      (Walk.climb upper increment steps x).points.forM each
      if (Walk.climb upper increment steps x).stuck then throw lost) := by
  induction steps generalizing x with
  | zero => simp [climb, Walk.climb]
  | succ steps ih =>
    rw [climb, Walk.climb]
    split
    · dsimp only
      split
      · simp
      · rw [ih]
        simp only [Walk.cons, List.forM_eq_forM, List.forM_cons, bind_assoc]
        rfl
    · simp

/-- The points of a domain are visited in the order of the walk. If that gets stuck, this is a failure afterwards. -/
theorem level_eq (index : Nat) (v : Variable) : level index each v = (do
    (Walk.through v).points.forM each
    if (Walk.through v).stuck then throw (.invalidProblem (.incrementBelowPrecision index v.increment))) := by
  cases v with
  | binary => simp [level, Walk.through]
  | integer lower upper => simp [level, Walk.through]
  | real lower upper increment =>
    rw [level, Walk.through, Walk.reals]
    split
    · exact climb_eq each ..
    · simp

end Loops

/-! ## What a part of a descent does -/

/-- A part of a descent leaves what is chosen as it was. It notes down what is chosen, continued by each assignment of a
list, or fails if there is no list. -/
def Lists (action : Action Unit) : Except Failure (List Assignment) → Prop
  | .ok as => ∀ d : Descent,
    action.run.run d = (.ok (), ⟨d.chosen, d.found ++ (as.map (d.chosen.toList ++ ·)).toArray⟩)
  | .error f => ∀ d : Descent, ∃ found, action.run.run d = (.error f, ⟨d.chosen, found⟩)

section Lists

variable {a b inner : Action Unit} {outcome : Except Failure (List Assignment)} {as : List Assignment} {f : Failure}

theorem run_seq (a b : Action Unit) (d : Descent) : (a >>= fun _ => b).run.run d =
    match a.run.run d with
    | (.ok _, d) => b.run.run d
    | (.error f, d) => (.error f, d) := by
  rw [ExceptT.run_bind, StateT.run_bind]
  cases h : a.run.run d with
  | mk outcome d => cases outcome <;> rfl

theorem run_visit (inner : Action Unit) (x : Value) (d : Descent) :
    (visit inner x).run.run d = ((inner.run.run (d.push x)).1, (inner.run.run (d.push x)).2.pop) := rfl

theorem lists_note : Lists (modify note) (.ok [[]]) := by
  intro d
  show (_, (⟨d.chosen, d.found.push d.chosen.toList⟩ : Descent)) = _
  simp

theorem lists_pure : Lists (pure ()) (.ok []) := by
  intro d
  show (_, d) = _
  simp

theorem lists_throw (f : Failure) : Lists (throw f) (.error f) := fun d => ⟨d.found, rfl⟩

theorem Lists.seq (ha : Lists a (.ok as)) (hb : Lists b outcome) :
    Lists (a >>= fun _ => b) (outcome.map (as ++ ·)) := by
  cases outcome with
  | ok bs =>
    intro d
    rw [run_seq, ha]
    dsimp only
    rw [hb]
    simp
  | error f =>
    intro d
    rw [run_seq, ha]
    exact hb _

theorem Lists.seq_error (ha : Lists a (.error f)) (b : Action Unit) : Lists (a >>= fun _ => b) (.error f) := by
  intro d
  obtain ⟨found, h⟩ := ha d
  rw [run_seq, h]
  exact ⟨found, rfl⟩

/-- A visit puts a value in front of every assignment and takes it back, also if it fails. -/
theorem Lists.visit (h : Lists inner outcome) (x : Value) :
    Lists (visit inner x) (outcome.map fun as => as.map (x :: ·)) := by
  cases outcome with
  | ok as =>
    intro d
    rw [run_visit, h]
    simp [push, pop, Function.comp_def]
  | error f =>
    intro d
    obtain ⟨found, hrun⟩ := h (d.push x)
    rw [run_visit, hrun]
    exact ⟨found, by simp [push, pop]⟩

theorem Lists.visits (h : Lists inner (.ok as)) (xs : List Value) :
    Lists (xs.forM (Descent.visit inner)) (.ok (xs.flatMap fun x => as.map (x :: ·))) := by
  induction xs with
  | nil => exact lists_pure
  | cons x xs ih => exact (h.visit x).seq ih

/-- The first visit that fails is the last one. -/
theorem Lists.visits_error (h : Lists inner (.error f)) {xs : List Value} (hxs : xs ≠ []) :
    Lists (xs.forM (Descent.visit inner)) (.error f) := by
  cases xs with
  | nil => exact absurd rfl hxs
  | cons x xs => exact (h.visit x).seq_error _

/-- A descent notes down the combinations of the grid, or fails as the grid does. -/
theorem lists_descend (index : Nat) (vs : List Variable) : Lists (descend index vs) (Grid.combine index vs) := by
  induction vs generalizing index with
  | nil => exact lists_note
  | cons v vs ih =>
    have htails := ih (index + 1)
    rw [descend, level_eq, Grid.combine]
    dsimp only
    -- without points nothing is visited, and whatever the variables behind would come to does not show
    by_cases hnil : (Walk.through v).points = []
    · rw [hnil, Walk.not_stuck_of_through_eq_nil hnil]
      exact lists_pure.seq lists_pure
    · rw [if_neg fun h => hnil (List.isEmpty_iff.mp h)]
      cases hcombine : Grid.combine (index + 1) vs with
      | error f =>
        rw [hcombine] at htails
        exact (htails.visits_error hnil).seq_error _
      | ok tails =>
        rw [hcombine] at htails
        have hvisits := htails.visits (Walk.through v).points
        cases (Walk.through v).stuck with
        | true => exact hvisits.seq (lists_throw _)
        | false =>
          have hend := hvisits.seq lists_pure
          rw [Except.map, List.append_nil] at hend
          exact hend

theorem assignments_eq_combine (vs : List Variable) : assignments vs = Grid.combine 0 vs := by
  have hlists := lists_descend 0 vs
  unfold assignments
  cases hcombine : Grid.combine 0 vs with
  | ok as =>
    rw [hcombine] at hlists
    rw [hlists]
    simp [start, Except.map]
  | error f =>
    rw [hcombine] at hlists
    obtain ⟨found, hrun⟩ := hlists start
    rw [hrun]
    rfl

end Lists

end Descent

/-! ## The assignments of a grid -/

namespace Grid

section Assignments

variable {vs : List Variable} {host : Host} {n d : Nat} {v : Variable}

theorem assignmentsByDescent_eq (vs : List Variable) (host : Host) :
    assignmentsByDescent vs host = assignments vs host := by
  unfold assignmentsByDescent assignments
  rw [Descent.assignments_eq_combine]

theorem assignments_eq_combine (hsize : size vs = .ok n) (hroom : n ≤ host.capacity) :
    assignments vs host = combine 0 vs := by
  rw [assignments, hsize, ok_bind, if_neg (Nat.not_lt.mpr hroom)]

theorem blocks_iff_stalled : Blocks vs d v ↔
    vs[d]? = some v ∧ v.Stalled ∧ ∀ u ∈ vs.take d, (Walk.through u).points ≠ [] := by
  simp only [ne_eq, Variable.points_eq_nil_iff, ← Walk.stuck_through_iff_stalled]
  exact ⟨fun h => ⟨h.here, h.stuck, h.reached⟩, fun h => ⟨h.1, h.2.1, h.2.2⟩⟩

/-- **A grid has every combination of the values that the loops visit once, the first variable changing slowest, unless
a loop stalls** behind variables that have a value. Then it has none, and the last such variable is reported. It does
not matter whether the grid is listed by a descent. -/
theorem assignments_cases (hsize : size vs = .ok n) (hroom : n ≤ host.capacity) :
    assignmentsByDescent vs host = assignments vs host ∧
    (∀ v : Variable, v.Visits (Walk.through v).points) ∧
    (∀ d v, Blocks vs d v ↔ vs[d]? = some v ∧ v.Stalled ∧ ∀ u ∈ vs.take d, (Walk.through u).points ≠ []) ∧
    ((∀ d v, ¬ Blocks vs d v) → ∃ as, assignments vs host = .ok as ∧
      (∀ a, a ∈ as ↔ List.Forall₂ (fun v x => x ∈ (Walk.through v).points) vs a) ∧ as.Nodup ∧
      as.Pairwise Assignment.Before) ∧
    ((∃ d v, Blocks vs d v) → ∃ d v, LastBlock vs d v ∧
      assignments vs host = .error (.invalidProblem (.incrementBelowPrecision d v.increment))) := by
  refine ⟨assignmentsByDescent_eq vs host, Walk.visits_through, fun d v => blocks_iff_stalled, ?_, ?_⟩
  · intro hnone
    rw [assignments_eq_combine hsize hroom]
    rcases combine_cases 0 vs with ⟨⟨as, has⟩, -⟩ | ⟨d, v, hlast, -⟩
    · refine ⟨as, has, fun a => ?_, nodup_combine has, pairwise_combine has⟩
      exact mem_combine_iff (fun _ _ _ _ => Iff.rfl) has
    · exact absurd hlast.blocks (hnone d v)
  · rintro ⟨e, u, hblocks⟩
    rw [assignments_eq_combine hsize hroom]
    rcases combine_cases 0 vs with ⟨-, hnone⟩ | ⟨d, v, hlast, herror⟩
    · exact absurd hblocks (hnone e u)
    · rw [Nat.zero_add] at herror
      exact ⟨d, v, hlast, herror⟩

/-- A variable that stalls, and behind it an empty domain and one more variable that stalls. -/
def stalledGrid : List Variable := [.binary, .real 1e20 1e20 1.0, .integer 3 1, .real 1e20 1e20 2.0]

theorem assignments_cases_stalledGrid : size stalledGrid = .ok 0 ∧ ∃ d v, LastBlock stalledGrid d v ∧
    assignments stalledGrid .standard = .error (.invalidProblem (.incrementBelowPrecision d v.increment)) := by
  have hsize : size stalledGrid = .ok 0 := by rfl
  have hblocks : Blocks stalledGrid 1 (.real 1e20 1e20 1.0) := ⟨rfl, by decide +kernel, by decide⟩
  exact ⟨hsize, (assignments_cases hsize (Nat.zero_le _)).2.2.2.2 ⟨1, _, hblocks⟩⟩

end Assignments

end Grid
end ParetoSweep
