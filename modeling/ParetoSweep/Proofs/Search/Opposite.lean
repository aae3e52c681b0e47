import ParetoSweep.Proofs.Candidate.Appraisal
import ParetoSweep.Proofs.Formula.Opposite
import ParetoSweep.Search.Workers

/-!
# Maximizing a formula and minimizing its opposite

An objective has its say only in the value that an evaluation takes from it, turned so that smaller is better
(`Objective.Alike`). So if one objective of a problem gives way to another one with these values, every assignment is
evaluated as before (`evaluate_withObjective`), and every search finds the same (`run_withObjective`). A formula to
maximize and its opposite to minimize are such objectives, as the opposite is read as the negation of the formula and
negation keeps NaN (`alike_opposite`).
-/

namespace ParetoSweep

/-- A problem with another objective in the place of the one with a given index. -/
def Problem.withObjective (p : Problem) (i : Nat) (o : Objective) : Problem :=
  { p with objectives := p.objectives.set i o }

/-! ## Objectives with the same values -/

/-- Objectives that every evaluation takes the same value from, as well as the same random numbers. -/
def Objective.Alike (o o' : Objective) : Prop := ∀ bindings index,
  Scorer.objectiveValue bindings ((o.sense, Formula.parse o.expression), index) =
    Scorer.objectiveValue bindings ((o'.sense, Formula.parse o'.expression), index)

section Alike

variable {p : Problem} {i : Nat} {o o' : Objective}

theorem objectives_withObjective (p : Problem) (i : Nat) (o : Objective) :
    (Scorer.ofProblem (p.withObjective i o)).objectives =
      (Scorer.ofProblem p).objectives.set i (o.sense, Formula.parse o.expression) :=
  List.map_set

theorem objectiveValues_withObjective (ho : p.objectives[i]? = some o) (h : o'.Alike o) (bindings : Bindings) :
    (Scorer.ofProblem (p.withObjective i o')).objectiveValues bindings =
      (Scorer.ofProblem p).objectiveValues bindings := by
  have hreading : (Scorer.ofProblem p).objectives[i]? = some (o.sense, Formula.parse o.expression) := by
    show (p.objectives.map _)[i]? = _
    rw [List.getElem?_map, ho]
    rfl
  show (Scorer.ofProblem (p.withObjective i o')).objectives.zipIdx.mapM (Scorer.objectiveValue bindings) =
    (Scorer.ofProblem p).objectives.zipIdx.mapM (Scorer.objectiveValue bindings)
  rw [objectives_withObjective]
  exact mapM_zipIdx_set hreading (h bindings) 0

/-- Every assignment is evaluated as before. -/
theorem evaluate_withObjective (ho : p.objectives[i]? = some o) (h : o'.Alike o) :
    (Scorer.ofProblem (p.withObjective i o')).evaluate = (Scorer.ofProblem p).evaluate := by
  have hscores : (Scorer.ofProblem (p.withObjective i o')).scores = (Scorer.ofProblem p).scores := by
    funext a
    unfold Scorer.scores
    rw [← objectiveValues_withObjective ho h]
    rfl
  have hcandidate : (Scorer.ofProblem (p.withObjective i o')).candidate = (Scorer.ofProblem p).candidate := by
    funext a outcome
    cases outcome with
    | ok scores => rfl
    | error index =>
      rw [Scorer.candidate, objectives_withObjective, List.length_set]
      rfl
  funext a
  rw [Scorer.evaluate, Scorer.evaluate, hscores, hcandidate]

theorem defect?_withObjective (p : Problem) (i : Nat) (o : Objective) : (p.withObjective i o).defect? = p.defect? := by
  have hempty : (p.objectives.set i o).isEmpty = p.objectives.isEmpty := by
    rw [Bool.eq_iff_iff, List.isEmpty_iff, List.isEmpty_iff, List.set_eq_nil_iff]
  rw [Problem.defect?, Problem.defect?, Problem.withObjective, hempty]

namespace Search

theorem approve_withObjective (p : Problem) (i : Nat) (o : Objective) (c : Config) :
    approve (p.withObjective i o) c = approve p c := by
  unfold approve
  rw [defect?_withObjective]
  rfl

/-- Every search finds the same or fails in the same way. -/
theorem run_withObjective (ho : p.objectives[i]? = some o) (h : o'.Alike o) (c : Config) (host : Host) :
    run (p.withObjective i o') c host = run p c host := by
  have hall : ∀ as, evaluateAll (p.withObjective i o') c host as = evaluateAll p c host as := by
    intro as
    rw [evaluateAll, evaluateAll, evaluate_withObjective ho h]
  simp only [run, approve_withObjective, hall]
  rfl

/-- So does every search by a team, which need not be reliable as it does the same work. -/
theorem runBy_withObjective (ho : p.objectives[i]? = some o) (h : o'.Alike o) (staff : Option Nat → Team) (c : Config)
    (host : Host) : runBy staff (p.withObjective i o') c host = runBy staff p c host := by
  have hall : ∀ team as, evaluateAllBy team (p.withObjective i o') c host as = evaluateAllBy team p c host as := by
    intro team as
    simp only [evaluateAllBy, evaluate_withObjective ho h]
  simp only [runBy, approve_withObjective, hall]
  rfl

end Search

end Alike

/-! ## Opposites -/

section Opposite

variable {p : Problem} {i : Nat} {source : String} {formula : Formula}

/-- A negated term has the opposite number as its value, or fails as the term does. -/
theorem run_eval_negate {bindings : Bindings} {t : Term} {stream stream' : Stream} {outcome : Except Fault Float}
    (h : (t.eval bindings).run.run stream = (outcome, stream')) :
    ((Term.negate t).eval bindings).run.run stream = (outcome.map fun x => -x, stream') := by
  rw [Term.eval]
  cases outcome with
  | ok x => exact run_bind_of_ok h
  | error fault => exact run_bind_of_error h

/-- The value of the negation is NaN if the value of the formula is, and the opposite number otherwise. -/
theorem run_value_negate {bindings : Bindings} {stream stream' : Stream} {x : Float}
    (h : (Reading.value (.ok formula) bindings).run stream = (x, stream')) (source : String) : ∃ y,
      (Reading.value (.ok ⟨source, .negate formula.term⟩) bindings).run stream = (y, stream') ∧
        y.isNaN = x.isNaN ∧ (x.isNaN = false → y = -x) := by
  obtain ⟨outcome, stream₁, heval⟩ : ∃ outcome stream₁,
      (formula.term.eval bindings).run.run stream = (outcome, stream₁) := ⟨_, _, rfl⟩
  have hvalue : (Reading.value (.ok formula) bindings).run stream = (Formula.orNaN outcome, stream₁) :=
    run_bind_of_eq heval
  obtain ⟨rfl, rfl⟩ := Prod.mk.inj (hvalue.symm.trans h)
  refine ⟨Formula.orNaN (outcome.map fun x => -x), run_bind_of_eq (run_eval_negate heval), ?_⟩
  cases outcome with
  | ok x => exact ⟨Number.isNaN_neg x, fun _ => rfl⟩
  | error fault =>
    -- a failure is NaN on both sides, so there is no number to compare
    refine ⟨rfl, fun hnumber => ?_⟩
    cases (show Number.nan.isNaN = true by decide).symm.trans hnumber

/-- Minimizing the negation takes the same values as maximizing the formula. -/
theorem alike_opposite (hparse : Formula.parse source = .ok formula)
    (hopposite : Formula.parse (Formula.opposite source) = .ok ⟨Formula.opposite source, .negate formula.term⟩) :
    Objective.Alike ⟨.minimize, Formula.opposite source⟩ ⟨.maximize, source⟩ := by
  intro bindings index
  rw [hparse, hopposite]
  funext stream
  obtain ⟨x, stream', hx⟩ : ∃ x stream', (Reading.value (.ok formula) bindings).run stream = (x, stream') :=
    ⟨_, _, rfl⟩
  obtain ⟨y, hy, hnan, hneg⟩ := run_value_negate hx (Formula.opposite source)
  have hsame : (if y.isNaN then .error index else .ok (Sense.minimize.oriented y) : Except Nat Float) =
      if x.isNaN then .error index else .ok (Sense.maximize.oriented x) := by
    rw [hnan]
    cases hxnan : x.isNaN with
    | true => rfl
    | false => rw [hneg hxnan]; rfl
  have hmin := Scorer.run_objectiveValue hy .minimize index
  rw [hsame] at hmin
  exact hmin.trans (Scorer.run_objectiveValue hx .maximize index).symm

/-- **To maximize a formula is to minimize its opposite.** Unless the opposite is too deep to be read, it can stand for
the formula in any objective: every assignment is evaluated to the same candidate with the same random numbers, and
every search, by whatever team, comes to the same result. -/
theorem Search.run_opposite (hobjective : p.objectives[i]? = some ⟨.maximize, source⟩)
    (hparse : Formula.parse source = .ok formula)
    (hdepth : Formula.parse (Formula.opposite source) ≠ .error .tooDeep) :
    let p' := p.withObjective i ⟨.minimize, Formula.opposite source⟩
    Formula.parse (Formula.opposite source) = .ok ⟨Formula.opposite source, .negate formula.term⟩ ∧
      (∀ a stream, ((Scorer.ofProblem p').evaluate a).run stream = ((Scorer.ofProblem p).evaluate a).run stream) ∧
      ∀ staff c host, runBy staff p' c host = runBy staff p c host ∧ run p' c host = run p c host := by
  have hopposite := (parse_opposite hparse).resolve_right hdepth
  have halike := alike_opposite hparse hopposite
  refine ⟨hopposite, ?_, ?_⟩
  · intro a stream
    rw [evaluate_withObjective hobjective halike]
  · intro staff c host
    exact ⟨runBy_withObjective hobjective halike staff c host, run_withObjective hobjective halike c host⟩

/-- A quotient that shall be large and is blurred by random numbers; it is NaN if both variables are zero. -/
def blurredQuotient : Problem where
  name := "blurred quotient"
  decisions := [.binary, .binary]
  objectives := [⟨.minimize, "x2"⟩, ⟨.maximize, "x1/x2-random()*2."⟩]
  constraints := [⟨"random()", .atMost, "x1"⟩]

theorem Search.run_opposite_blurredQuotient :
    let p' := blurredQuotient.withObjective 1 ⟨.minimize, "-(x1/x2-random()*2.)"⟩
    (∃ formula, Formula.parse "x1/x2-random()*2." = .ok formula ∧
        Formula.parse "-(x1/x2-random()*2.)" = .ok ⟨"-(x1/x2-random()*2.)", .negate formula.term⟩) ∧
      (∀ a stream, ((Scorer.ofProblem p').evaluate a).run stream =
        ((Scorer.ofProblem blurredQuotient).evaluate a).run stream) ∧
      runBy (fun _ => .lastFirst) p' .sequential .standard =
        runBy (fun _ => .lastFirst) blurredQuotient .sequential .standard ∧
      run p' .standard .standard = run blurredQuotient .standard .standard := by
  obtain ⟨formula, hparse⟩ := exists_eq_ok
    (by decide +kernel : (Formula.parse "x1/x2-random()*2.").isOk = true)
  obtain ⟨opposite, hopposite⟩ := exists_eq_ok
    (by decide +kernel : (Formula.parse (Formula.opposite "x1/x2-random()*2.")).isOk = true)
  have hdepth : Formula.parse (Formula.opposite "x1/x2-random()*2.") ≠ .error .tooDeep := by
    rw [hopposite]
    nofun
  have hwritten : Formula.opposite "x1/x2-random()*2." = "-(x1/x2-random()*2.)" := by decide +kernel
  obtain ⟨hread, hevaluate, hrun⟩ := run_opposite (p := blurredQuotient) (i := 1) rfl hparse hdepth
  rw [hwritten] at hread hevaluate hrun
  exact ⟨⟨formula, hparse, hread⟩, hevaluate, (hrun _ .sequential .standard).1,
    (hrun (fun _ => .lastFirst) .standard .standard).2⟩

end Opposite

end ParetoSweep
