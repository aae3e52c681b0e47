import ParetoSweep.Proofs.Candidate.Scorer
import ParetoSweep.Proofs.Number.Zero

/-!
# When candidates are feasible

Feasibility is read off a sum of absolute violations. An `Appraisal` keeps what an evaluation throws away, the values of
the objectives and of the sides of the constraints, and a verdict on it makes the candidate (`evaluate_eq`). The verdict
is that the candidate is feasible exactly if all objectives have values and every relation holds between its two sides
(`feasible_verdict_iff`): a violation is zero only if the relation holds (`rank_violation_eq_zero_iff`), whatever the
difference is rounded to, and violations do not cancel out since the sum is over their absolute values.
-/

namespace ParetoSweep

open Number

/-! ## Violations -/

/-- Only relations that hold have violation zero. -/
theorem rank_violation_eq_zero_iff (r : Relation) (x y : Float) :
    rank (r.violation x y) = 0 ↔ r.holds x y = true := by
  by_cases hholds : r.holds x y = true
  · have hzero : rank 0.0 = 0 := by decide
    rw [Relation.violation_of_holds hholds]
    exact iff_of_true hzero hholds
  · refine iff_of_false ?_ hholds
    rw [Relation.violation, if_neg hholds]
    by_cases hopposed : r.opposed x y = true
    · obtain ⟨hx, hy, hne⟩ := rank_ne_of_opposed hholds hopposed
      rw [if_pos hopposed]
      exact rank_sub_ne_zero hx hy hne
    · rw [if_neg hopposed]
      decide

/-! ## Appraisals -/

/-- The values that an evaluation meets: those of the objectives up to the first one that is NaN, and those of the left
and right sides of the constraints if there is none. -/
structure Appraisal where
  objectives : List Float
  sides : List (Float × Float)
deriving DecidableEq

namespace Appraisal

/-- Whether some objective is NaN. -/
def broken (ap : Appraisal) : Bool := ap.objectives.any Float.isNaN

theorem broken_eq_false_iff {ap : Appraisal} : ap.broken = false ↔ ∀ x ∈ ap.objectives, x.isNaN = false := by
  rw [broken, List.any_eq_false]
  simp only [Bool.not_eq_true]

end Appraisal

namespace Scorer

/-- The values of objectives up to the first one that is NaN. -/
def meetObjectives (bindings : Bindings) : List (Sense × Reading) → StateM Stream (List Float)
  | [] => pure []
  | (_, r) :: rest => do
    let x ← r.value bindings
    if x.isNaN then return [x]
    let xs ← meetObjectives bindings rest
    return x :: xs

/-- The values of the sides of a constraint. -/
def meetSides (bindings : Bindings) (c : ConstraintReading) : StateM Stream (Float × Float) := do
  let x ← c.left.value bindings
  let y ← c.right.value bindings
  return (x, y)

/-- The values that the evaluation of an assignment meets. -/
def appraise (s : Scorer) (a : Assignment) : StateM Stream Appraisal := do
  let objectives ← meetObjectives (s.bindings a) s.objectives
  if objectives.any Float.isNaN then return ⟨objectives, []⟩
  let sides ← s.constraints.mapM (meetSides (s.bindings a))
  return ⟨objectives, sides⟩

/-- The oriented values of objectives. -/
def orientedValues (objectives : List (Sense × Reading)) (xs : List Float) : List Float :=
  List.zipWith (fun o x => o.1.oriented x) objectives xs

/-- The violations of constraints. -/
def sideViolations (constraints : List ConstraintReading) (sides : List (Float × Float)) : List Float :=
  List.zipWith (fun c side => c.relation.violation side.1 side.2) constraints sides

/-- The candidate that an appraisal amounts to. -/
def verdict (s : Scorer) (a : Assignment) (ap : Appraisal) : Candidate where
  assignment := a
  outcome :=
    if ap.broken then .unscored s.objectives.length s.constraints.length
    else .scored ⟨orientedValues s.objectives ap.objectives, sideViolations s.constraints ap.sides⟩

/-! ## Evaluations are verdicts -/

section Verdicts

variable {bindings : Bindings} {stream stream' : Stream} {xs : List Float}

theorem meetObjectives_cons_eq {sense : Sense} {r : Reading} {rest : List (Sense × Reading)}
    (h : (meetObjectives bindings ((sense, r) :: rest)).run stream = (xs, stream')) :
    ∃ x stream₁, (r.value bindings).run stream = (x, stream₁) ∧
      ((x.isNaN = true ∧ xs = [x] ∧ stream' = stream₁) ∨
        (x.isNaN = false ∧ ∃ xs', (meetObjectives bindings rest).run stream₁ = (xs', stream') ∧ xs = x :: xs')) := by
  obtain ⟨x, stream₁, hx⟩ : ∃ x stream₁, (r.value bindings).run stream = (x, stream₁) := ⟨_, _, rfl⟩
  refine ⟨x, stream₁, hx, ?_⟩
  rw [meetObjectives, run_bind_of_eq hx] at h
  cases hnan : x.isNaN with
  | true =>
    simp only [hnan, if_true] at h
    cases h
    exact .inl ⟨rfl, rfl, rfl⟩
  | false =>
    simp only [hnan] at h
    cases h
    exact .inr ⟨rfl, _, rfl, rfl⟩

theorem length_meetObjectives {objectives : List (Sense × Reading)}
    (h : (meetObjectives bindings objectives).run stream = (xs, stream')) (hxs : ∀ x ∈ xs, x.isNaN = false) :
    xs.length = objectives.length := by
  induction objectives generalizing stream xs with
  | nil =>
    cases h
    rfl
  | cons o rest ih =>
    obtain ⟨x, stream₁, -, ⟨hnan, rfl, -⟩ | ⟨-, xs', hrest, rfl⟩⟩ := meetObjectives_cons_eq h
    · rw [hxs x List.mem_cons_self] at hnan
      cases hnan
    · simp [ih hrest fun y hy => hxs y (List.mem_cons_of_mem x hy)]

/-- The value of an objective, to be minimized, or its index if it has none. -/
def objectiveValue (bindings : Bindings) : (Sense × Reading) × Nat → Scoring Float
  | ((sense, r), index) => do
    let x ← r.value bindings
    if x.isNaN then throw index
    return sense.oriented x

theorem run_objectiveValue {r : Reading} {x : Float} (h : (r.value bindings).run stream = (x, stream')) (sense : Sense)
    (index : Nat) : (objectiveValue bindings ((sense, r), index)).run stream =
      (if x.isNaN then .error index else .ok (sense.oriented x), stream') := by
  rw [objectiveValue, run_bind_of_ok (run_lift_of_eq h)]
  cases x.isNaN <;> rfl

/-- The objectives fail exactly if one that is met is NaN. -/
theorem run_objectiveValues {objectives : List (Sense × Reading)} {n : Nat}
    (h : (meetObjectives bindings objectives).run stream = (xs, stream')) :
    (xs.any Float.isNaN = true ∧ ∃ index,
        ((objectives.zipIdx n).mapM (objectiveValue bindings)).run stream = (.error index, stream')) ∨
      (xs.any Float.isNaN = false ∧
        ((objectives.zipIdx n).mapM (objectiveValue bindings)).run stream =
          (.ok (orientedValues objectives xs), stream')) := by
  induction objectives generalizing n stream xs with
  | nil =>
    cases h
    exact .inr ⟨rfl, rfl⟩
  | cons o rest ih =>
    obtain ⟨sense, r⟩ := o
    obtain ⟨x, stream₁, hx, hmet⟩ := meetObjectives_cons_eq h
    rw [List.zipIdx_cons, List.mapM_cons]
    obtain ⟨hnan, rfl, rfl⟩ | ⟨hnumber, xs', hrest, rfl⟩ := hmet
    · have hvalue : (objectiveValue bindings ((sense, r), n)).run stream = (.error n, stream') := by
        rw [run_objectiveValue hx, if_pos hnan]
      rw [List.any_cons, hnan]
      exact .inl ⟨rfl, n, run_bind_of_error hvalue⟩
    · have hvalue : (objectiveValue bindings ((sense, r), n)).run stream = (.ok (sense.oriented x), stream₁) := by
        rw [run_objectiveValue hx, if_neg (by rw [hnumber]; decide)]
      rw [run_bind_of_ok hvalue, List.any_cons, hnumber, Bool.false_or]
      obtain ⟨hany, index, hrun⟩ | ⟨hany, hrun⟩ := ih (n := n + 1) hrest
      · exact .inl ⟨hany, index, run_bind_of_error hrun⟩
      · exact .inr ⟨hany, run_bind_of_ok hrun⟩

theorem violationValues_eq (s : Scorer) (bindings : Bindings) :
    s.violationValues bindings = sideViolations s.constraints <$> s.constraints.mapM (meetSides bindings) := by
  refine mapM_eq_map ?_
  intro c _
  simp [meetSides]

variable {s : Scorer} {a : Assignment} {ap : Appraisal}

theorem verdict_of_broken (h : ap.broken = true) :
    s.verdict a ap = ⟨a, .unscored s.objectives.length s.constraints.length⟩ := by
  rw [verdict, if_pos h]

theorem verdict_of_complete (h : ap.broken = false) : s.verdict a ap =
    ⟨a, .scored ⟨orientedValues s.objectives ap.objectives, sideViolations s.constraints ap.sides⟩⟩ := by
  rw [verdict, if_neg (by rw [h]; decide)]

/-- An appraisal goes through the objectives, and then through the constraints unless an objective is NaN. -/
theorem appraise_cases (h : (s.appraise a).run stream = (ap, stream')) : ∃ stream₁,
    (meetObjectives (s.bindings a) s.objectives).run stream = (ap.objectives, stream₁) ∧
      ((ap.broken = true ∧ stream' = stream₁) ∨
        (ap.broken = false ∧ (s.constraints.mapM (meetSides (s.bindings a))).run stream₁ = (ap.sides, stream'))) := by
  obtain ⟨xs, stream₁, hmet⟩ : ∃ xs stream₁, (meetObjectives (s.bindings a) s.objectives).run stream = (xs, stream₁) :=
    ⟨_, _, rfl⟩
  rw [appraise, run_bind_of_eq hmet] at h
  cases hany : xs.any Float.isNaN with
  | true =>
    rw [hany, if_pos rfl] at h
    cases h
    exact ⟨_, hmet, .inl ⟨hany, rfl⟩⟩
  | false =>
    rw [hany, if_neg Bool.false_ne_true] at h
    cases h
    exact ⟨_, hmet, .inr ⟨hany, rfl⟩⟩

/-- **An evaluation is a verdict on an appraisal.** -/
theorem evaluate_eq (s : Scorer) (a : Assignment) : s.evaluate a = s.verdict a <$> s.appraise a := by
  funext stream
  obtain ⟨ap, stream', happraise⟩ : ∃ ap stream', (s.appraise a).run stream = (ap, stream') := ⟨_, _, rfl⟩
  obtain ⟨stream₁, hmet, hcases⟩ := appraise_cases happraise
  have hverdict : (s.verdict a <$> s.appraise a).run stream = (s.verdict a ap, stream') := by
    rw [StateT.run_map, happraise]
    rfl
  change (s.evaluate a).run stream = (s.verdict a <$> s.appraise a).run stream
  rw [hverdict]
  obtain ⟨hany, index, hrun⟩ | ⟨hany, hrun⟩ := run_objectiveValues (n := 0) hmet
  · obtain ⟨hbroken, rfl⟩ | ⟨hcomplete, -⟩ := hcases
    · have hscores : (s.scores a).run stream = (.error index, stream') := run_bind_of_error hrun
      rw [evaluate, run_bind_of_eq (x := (s.scores a).run) hscores, verdict_of_broken hbroken]
      rfl
    · cases hany.symm.trans hcomplete
  · obtain ⟨hbroken, -⟩ | ⟨hcomplete, hsides⟩ := hcases
    · cases hany.symm.trans hbroken
    · have hviolations : (s.violationValues (s.bindings a)).run stream₁ =
          (sideViolations s.constraints ap.sides, stream') := by
        rw [violationValues_eq, StateT.run_map, hsides]
        rfl
      have hscores : (s.scores a).run stream =
          (.ok ⟨orientedValues s.objectives ap.objectives, sideViolations s.constraints ap.sides⟩, stream') := by
        change (s.objectiveValues (s.bindings a)).run stream = _ at hrun
        rw [scores, run_bind_of_ok hrun, run_bind_of_ok (run_lift_of_eq hviolations)]
        rfl
      rw [evaluate, run_bind_of_eq (x := (s.scores a).run) hscores, verdict_of_complete hcomplete]
      rfl

/-- What an evaluation leaves behind, read off the appraisal. -/
theorem run_evaluate (h : (s.appraise a).run stream = (ap, stream')) :
    (s.evaluate a).run stream = (s.verdict a ap, stream') := by
  rw [evaluate_eq, StateT.run_map, h]
  rfl

/-- There is a value for each objective unless one is NaN. -/
theorem length_objectives_appraise (h : (s.appraise a).run stream = (ap, stream')) (hcomplete : ap.broken = false) :
    ap.objectives.length = s.objectives.length := by
  obtain ⟨stream₁, hmet, -⟩ := appraise_cases h
  exact length_meetObjectives hmet (Appraisal.broken_eq_false_iff.mp hcomplete)

/-- There are two values for each constraint, with what always holds of them, unless an objective is NaN. -/
theorem forall₂_sides_appraise {P : ConstraintReading → Float × Float → Prop}
    (hP : ∀ c ∈ s.constraints, Always (meetSides (s.bindings a) c) (P c))
    (h : (s.appraise a).run stream = (ap, stream')) (hcomplete : ap.broken = false) :
    List.Forall₂ P s.constraints ap.sides := by
  obtain ⟨stream₁, -, ⟨hbroken, -⟩ | ⟨-, hsides⟩⟩ := appraise_cases h
  · cases hcomplete.symm.trans hbroken
  · have hforall := always_forall₂ hP stream₁
    rwa [hsides] at hforall

theorem length_sides_appraise (h : (s.appraise a).run stream = (ap, stream')) (hcomplete : ap.broken = false) :
    ap.sides.length = s.constraints.length := by
  have hforall := forall₂_sides_appraise (P := fun _ _ => True) (fun _ _ => always_true _) h hcomplete
  exact hforall.length_eq.symm

theorem length_violations_verdict (h : (s.appraise a).run stream = (ap, stream')) :
    (s.verdict a ap).violations.length = s.constraints.length := by
  cases hbroken : ap.broken with
  | true =>
    rw [verdict_of_broken hbroken]
    exact List.length_replicate
  | false =>
    rw [verdict_of_complete hbroken]
    simp [Candidate.violations, sideViolations, length_sides_appraise h hbroken]

/-- Every relation holds exactly if no violation is different from zero. -/
theorem forall_sideViolations_iff {constraints : List ConstraintReading} {sides : List (Float × Float)}
    (h : sides.length = constraints.length) : (∀ v ∈ sideViolations constraints sides, rank v = 0) ↔
      List.Forall₂ (fun c side => c.relation.holds side.1 side.2 = true) constraints sides := by
  induction constraints generalizing sides with
  | nil =>
    obtain rfl := List.eq_nil_of_length_eq_zero h
    simp [sideViolations]
  | cons c rest ih =>
    cases sides with
    | nil => cases h
    | cons side sides =>
      have htail := ih (Nat.succ.inj h)
      simp only [sideViolations] at htail
      simp [sideViolations, rank_violation_eq_zero_iff, htail]

theorem isNaN_sideViolations {constraints : List ConstraintReading} {sides : List (Float × Float)} :
    ∀ v ∈ sideViolations constraints sides, v.isNaN = false := by
  intro v hv
  rw [sideViolations, ← List.map_uncurry_zip_eq_zipWith] at hv
  obtain ⟨⟨c, side⟩, -, rfl⟩ := List.mem_map.mp hv
  exact isNaN_violation c.relation side.1 side.2

end Verdicts

end Scorer

/-! ## Feasibility -/

section Feasibility

variable {a : Assignment} {objectives violations : List Float}

/-- Violations do not cancel out. -/
theorem feasible_scored_iff (h : ∀ v ∈ violations, v.isNaN = false) :
    (⟨a, .scored ⟨objectives, violations⟩⟩ : Candidate).feasible = true ↔ ∀ v ∈ violations, rank v = 0 := by
  have hzero : rank 0.0 = 0 := by decide
  have habs := forall_map_abs h
  show (total (violations.map Float.abs) == 0.0) = true ↔ _
  rw [beq_iff_rank (isNaN_total habs) (by decide), hzero, rank_total_eq_zero_iff habs]
  simp [rank_abs_eq_zero_iff]

theorem rank_measure_nonneg (s : Scorer) (a : Assignment) (ap : Appraisal) : 0 ≤ rank (s.verdict a ap).measure := by
  cases hbroken : ap.broken with
  | true =>
    rw [Scorer.verdict_of_broken hbroken]
    show 0 ≤ rank infinity
    decide
  | false =>
    rw [Scorer.verdict_of_complete hbroken]
    exact rank_total_nonneg (forall_map_abs Scorer.isNaN_sideViolations)

/-- The verdict on an appraisal that was made looks at all objectives and all constraints. -/
theorem feasible_verdict_iff {s : Scorer} {ap : Appraisal} {stream stream' : Stream}
    (h : (s.appraise a).run stream = (ap, stream')) : (s.verdict a ap).feasible = true ↔
      (ap.objectives.length = s.objectives.length ∧ ∀ x ∈ ap.objectives, x.isNaN = false) ∧
        List.Forall₂ (fun c side => c.relation.holds side.1 side.2 = true) s.constraints ap.sides := by
  rw [← Appraisal.broken_eq_false_iff]
  cases hbroken : ap.broken with
  | true =>
    rw [Scorer.verdict_of_broken hbroken, Candidate.feasible_unscored]
    simp
  | false =>
    rw [Scorer.verdict_of_complete hbroken, feasible_scored_iff Scorer.isNaN_sideViolations,
      Scorer.forall_sideViolations_iff (Scorer.length_sides_appraise h hbroken)]
    simp [Scorer.length_objectives_appraise h hbroken]

theorem feasible_verdict_ofProblem_iff {p : Problem} {ap : Appraisal} {stream stream' : Stream}
    (h : ((Scorer.ofProblem p).appraise a).run stream = (ap, stream')) :
    ((Scorer.ofProblem p).verdict a ap).feasible = true ↔
      (ap.objectives.length = p.objectives.length ∧ ∀ x ∈ ap.objectives, x.isNaN = false) ∧
        List.Forall₂ (fun k side => k.relation.holds side.1 side.2 = true) p.constraints ap.sides := by
  rw [feasible_verdict_iff h]
  simp [Scorer.ofProblem]

/-- **A candidate is feasible exactly if every objective has a value and every relation holds between the values that
its sides have in the same evaluation.** It has one objective for each of the problem and one violation for each
constraint, and neither is an objective NaN nor the measure NaN or negative. -/
theorem evaluate_feasible (p : Problem) (a : Assignment) (stream : Stream) : ∃ ap c stream',
    ((Scorer.ofProblem p).appraise a).run stream = (ap, stream') ∧
    ((Scorer.ofProblem p).evaluate a).run stream = (c, stream') ∧
    c.objectives.length = p.objectives.length ∧ c.violations.length = p.constraints.length ∧
    (∀ x ∈ c.objectives, x.isNaN = false) ∧ c.measure.isNaN = false ∧ 0.0 ≤ c.measure ∧
    (c.feasible = true ↔
      (ap.objectives.length = p.objectives.length ∧ ∀ x ∈ ap.objectives, x.isNaN = false) ∧
        List.Forall₂ (fun k side => k.relation.holds side.1 side.2 = true) p.constraints ap.sides) := by
  obtain ⟨ap, stream', happraise⟩ : ∃ ap stream',
      ((Scorer.ofProblem p).appraise a).run stream = (ap, stream') := ⟨_, _, rfl⟩
  have hevaluate := Scorer.run_evaluate happraise
  have hcomparable : ((Scorer.ofProblem p).verdict a ap).Comparable (Scorer.ofProblem p).objectives.length := by
    have hall := (Scorer.ofProblem p).comparable_evaluate a stream
    rwa [hevaluate] at hall
  have hobjectives : (Scorer.ofProblem p).objectives.length = p.objectives.length := List.length_map ..
  have hconstraints : (Scorer.ofProblem p).constraints.length = p.constraints.length := List.length_map ..
  refine ⟨ap, _, stream', happraise, hevaluate, hcomparable.length.trans hobjectives, ?_, hcomparable.objectives,
    hcomparable.measure, ?_, ?_⟩
  · rw [Scorer.length_violations_verdict happraise, hconstraints]
  · rw [le_iff_rank (by decide) hcomparable.measure]
    exact rank_measure_nonneg _ a ap
  · exact feasible_verdict_ofProblem_iff happraise

end Feasibility

end ParetoSweep
