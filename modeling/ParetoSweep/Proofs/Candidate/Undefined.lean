import ParetoSweep.Proofs.Candidate.Appraisal
import ParetoSweep.Proofs.Formula.Draws

/-!
# Constraints with a side that is no number

A side of a constraint is NaN if its text cannot be read, if it mentions a name without a value (`Undefined`), or if the
numbers come to NaN. An order does not hold then and its violation is one. But everything differs from NaN, so a
constraint that asks its sides to differ is kept: it has violation zero and does not make the candidate infeasible
(`evaluate_failing`), even if it cannot be evaluated for any assignment (`feasible_undefinedSides`).
-/

namespace ParetoSweep

open Number

/-! ## Relations with NaN -/

/-- Some side is not a number. -/
def Unordered (side : Float × Float) : Prop := side.1.isNaN = true ∨ side.2.isNaN = true

section Relations

variable {r : Relation} {side : Float × Float}

theorem Unordered.not_numbers (h : Unordered side) : ¬ (side.1.isNaN = false ∧ side.2.isNaN = false) := by
  rintro ⟨hx, hy⟩
  rw [Unordered, hx, hy] at h
  simp at h

/-- NaN is in no order, and it differs from everything. -/
theorem Unordered.holds_iff (h : Unordered side) : r.holds side.1 side.2 = true ↔ r = .differs := by
  cases r with
  | atMost =>
    refine iff_of_false ?_ nofun
    intro hle
    exact h.not_numbers (isNaN_of_le (of_decide_eq_true hle))
  | atLeast =>
    refine iff_of_false ?_ nofun
    intro hle
    exact h.not_numbers (isNaN_of_le (of_decide_eq_true hle)).symm
  | differs =>
    refine iff_of_true ?_ rfl
    cases hbeq : side.1 == side.2 with
    | true => exact absurd (isNaN_of_compare (beq_iff_compare.mp hbeq)) h.not_numbers
    | false => simp [Relation.holds, bne, hbeq]

theorem Unordered.violation_eq (h : Unordered side) :
    r.violation side.1 side.2 = if r = .differs then 0.0 else 1.0 := by
  by_cases hdiffers : r = .differs
  · rw [if_pos hdiffers, Relation.violation_of_holds (h.holds_iff.mpr hdiffers)]
  · have hholds : ¬ r.holds side.1 side.2 = true := fun hholds => hdiffers (h.holds_iff.mp hholds)
    rw [if_neg hdiffers, Relation.violation, if_neg hholds, if_neg]
    -- only numbers are ordered the wrong way round
    intro hopposed
    obtain ⟨hx, hy, -⟩ := rank_ne_of_opposed hholds hopposed
    exact h.not_numbers ⟨hx, hy⟩

end Relations

/-! ## Sides without values -/

/-- A text that cannot be read, or that mentions a name without a value. -/
def Undefined (bindings : Bindings) (source : String) : Prop :=
  ∀ formula, Formula.parse source = .ok formula → ∃ word ∈ Mark.names formula.term.marks, bindings.lookup word = none

instance (bindings : Bindings) (source : String) : Decidable (Undefined bindings source) :=
  match h : Formula.parse source with
  | .error _ => .isTrue fun _ hformula => nomatch h.symm.trans hformula
  | .ok formula => decidable_of_iff (∃ word ∈ Mark.names formula.term.marks, bindings.lookup word = none) (by
      simp [Undefined, h])

/-- An undefined text is NaN, whatever the random numbers are. -/
theorem Undefined.isNaN_value {bindings : Bindings} {source : String} (h : Undefined bindings source) :
    Always (Reading.value (Formula.parse source) bindings) fun x => x.isNaN = true := by
  have hnan : Number.nan.isNaN = true := by decide
  intro stream
  cases hparse : Formula.parse source with
  | error fault => exact hnan
  | ok formula =>
    obtain ⟨word, hword, hlookup⟩ := h formula hparse
    obtain ⟨first, hfirst⟩ : ∃ first, Mark.unbound? bindings formula.term.marks = some first := by
      rw [← Option.isSome_iff_exists, Mark.unbound?, List.find?_isSome]
      exact ⟨word, hword, by simp [hlookup]⟩
    have hreports := reports_eval hparse bindings stream
    simp only [Mark.Reports, hfirst] at hreports
    show (Formula.orNaN ((formula.eval bindings).run stream).1).isNaN = true
    rw [hreports]
    exact hnan

/-- A side of a constraint has no number: it is undefined, or what the sides come to is not two numbers. -/
def Constraint.Fails (k : Constraint) (bindings : Bindings) (side? : Option (Float × Float)) : Prop :=
  Undefined bindings k.left ∨ Undefined bindings k.right ∨ ∃ side, side? = some side ∧ Unordered side

/-! ## Evaluations with a constraint that fails -/

theorem forall₂_iff_getElem? {α β : Type} {R : α → β → Prop} {as : List α} {bs : List β} : List.Forall₂ R as bs ↔
    as.length = bs.length ∧ ∀ (i : Nat) (a : α) (b : β), as[i]? = some a → bs[i]? = some b → R a b := by
  rw [List.forall₂_iff_get]
  refine and_congr_right fun _ => ⟨fun h i a b ha hb => ?_, fun h i hi hi' => ?_⟩
  · obtain ⟨hi, rfl⟩ := List.getElem?_eq_some_iff.mp ha
    obtain ⟨hi', rfl⟩ := List.getElem?_eq_some_iff.mp hb
    exact h i hi hi'
  · exact h i _ _ (List.getElem?_eq_getElem hi) (List.getElem?_eq_getElem hi')

/-- One pair apart from the others. -/
theorem forall₂_iff_apart {α β : Type} {R : α → β → Prop} {as : List α} {bs : List β} {i : Nat} {a : α} {b : β}
    (hlength : as.length = bs.length) (ha : as[i]? = some a) (hb : bs[i]? = some b) : List.Forall₂ R as bs ↔
      R a b ∧ ∀ (j : Nat) (a' : α) (b' : β), j ≠ i → as[j]? = some a' → bs[j]? = some b' → R a' b' := by
  rw [forall₂_iff_getElem?, and_iff_right hlength]
  constructor
  · intro h
    exact ⟨h i a b ha hb, fun j a' b' _ => h j a' b'⟩
  · rintro ⟨hab, hothers⟩ j a' b' ha' hb'
    by_cases hj : j = i
    · subst hj
      cases ha.symm.trans ha'
      cases hb.symm.trans hb'
      exact hab
    · exact hothers j a' b' hj ha' hb'

/-- A side that is always NaN is NaN when it is met. -/
theorem Scorer.always_meetSides (bindings : Bindings) (c : ConstraintReading) :
    Always (Scorer.meetSides bindings c) fun side =>
      (Always (c.left.value bindings) (fun x => x.isNaN = true) ∨
        Always (c.right.value bindings) fun y => y.isNaN = true) → Unordered side := by
  intro stream
  rintro (hleft | hright)
  · exact .inl (hleft stream)
  · exact .inr (hright _)

section Evaluations

variable {p : Problem} {a : Assignment} {stream stream' : Stream} {ap : Appraisal} {i : Nat} {k : Constraint}

theorem getElem?_constraints (hk : p.constraints[i]? = some k) :
    (Scorer.ofProblem p).constraints[i]? = some ⟨Formula.parse k.left, k.relation, Formula.parse k.right⟩ := by
  simp [Scorer.ofProblem, hk]

/-- What fails comes to NaN in the evaluation, if that comes to the constraints. -/
theorem unordered_of_fails (hk : p.constraints[i]? = some k)
    (happraise : ((Scorer.ofProblem p).appraise a).run stream = (ap, stream'))
    (hfails : k.Fails ((Scorer.ofProblem p).bindings a) ap.sides[i]?) (hcomplete : ap.broken = false) :
    ∃ side, ap.sides[i]? = some side ∧ Unordered side := by
  have hall := Scorer.forall₂_sides_appraise (fun c _ => Scorer.always_meetSides _ c) happraise hcomplete
  have hreading := getElem?_constraints hk
  obtain ⟨hlength, hsides⟩ := forall₂_iff_getElem?.mp hall
  obtain ⟨hi, -⟩ := List.getElem?_eq_some_iff.mp hreading
  rw [hlength] at hi
  have hside := List.getElem?_eq_getElem hi
  have hunordered := hsides i _ _ hreading hside
  obtain hleft | hright | hmet := hfails
  · exact ⟨_, hside, hunordered (.inl hleft.isNaN_value)⟩
  · exact ⟨_, hside, hunordered (.inr hright.isNaN_value)⟩
  · exact hmet

/-- **A constraint with a side that is no number.** If it asks for an order then the candidate is not feasible and the
constraint has violation one. If it asks for sides that differ then it has violation zero, and the candidate is feasible
if all objectives have values and all other constraints hold. -/
theorem evaluate_failing (hk : p.constraints[i]? = some k)
    (happraise : ((Scorer.ofProblem p).appraise a).run stream = (ap, stream'))
    (hfails : k.Fails ((Scorer.ofProblem p).bindings a) ap.sides[i]?) : ∃ c,
      ((Scorer.ofProblem p).evaluate a).run stream = (c, stream') ∧
      ((∀ x ∈ ap.objectives, x.isNaN = false) →
        c.violations[i]? = some (if k.relation = .differs then 0.0 else 1.0)) ∧
      (c.feasible = true ↔ k.relation = .differs ∧ (∀ x ∈ ap.objectives, x.isNaN = false) ∧
        ∀ j other side, j ≠ i → p.constraints[j]? = some other → ap.sides[j]? = some side →
          other.relation.holds side.1 side.2 = true) := by
  refine ⟨_, Scorer.run_evaluate happraise, ?_, ?_⟩
  · intro hobjectives
    have hcomplete := Appraisal.broken_eq_false_iff.mpr hobjectives
    obtain ⟨side, hside, hunordered⟩ := unordered_of_fails hk happraise hfails hcomplete
    rw [Scorer.verdict_of_complete hcomplete]
    simp [Candidate.violations, Scorer.sideViolations, List.getElem?_zipWith, getElem?_constraints hk, hside,
      hunordered.violation_eq]
  · rw [feasible_verdict_ofProblem_iff happraise]
    cases hbroken : ap.broken with
    | true =>
      -- the evaluation does not come to the constraints
      have hnan : ¬ ∀ x ∈ ap.objectives, x.isNaN = false := by
        rw [← Appraisal.broken_eq_false_iff, hbroken]
        decide
      simp only [hnan, and_false, false_and]
    | false =>
      obtain ⟨side, hside, hunordered⟩ := unordered_of_fails hk happraise hfails hbroken
      have hobjectives := Appraisal.broken_eq_false_iff.mp hbroken
      have hlength := Scorer.length_objectives_appraise happraise hbroken
      have hlength' := Scorer.length_sides_appraise happraise hbroken
      simp only [Scorer.ofProblem, List.length_map] at hlength hlength'
      rw [forall₂_iff_apart hlength'.symm hk hside, hunordered.holds_iff, and_iff_right ⟨hlength, hobjectives⟩,
        and_iff_right hobjectives]

/-- Sides that come to NaN, that mention an unknown name and that cannot be read. -/
def undefinedSides : Problem where
  name := "undefined sides"
  decisions := [.binary]
  objectives := [⟨.minimize, "x1"⟩]
  constraints := [⟨"0/0", .differs, "0"⟩, ⟨"y", .differs, "0"⟩, ⟨"1", .differs, "2+"⟩]

theorem evaluate_failing_unknownName : undefinedSides.constraints[1]? = some ⟨"y", .differs, "0"⟩ ∧ ∃ ap stream',
    ((Scorer.ofProblem undefinedSides).appraise [.binary true]).run (.ofSeed 0) = (ap, stream') ∧
    Constraint.Fails ⟨"y", .differs, "0"⟩ ((Scorer.ofProblem undefinedSides).bindings [.binary true]) ap.sides[1]? ∧
    ∃ c, ((Scorer.ofProblem undefinedSides).evaluate [.binary true]).run (.ofSeed 0) = (c, stream') ∧
      ((∀ x ∈ ap.objectives, x.isNaN = false) →
        c.violations[1]? = some (if Relation.differs = .differs then 0.0 else 1.0)) ∧
      (c.feasible = true ↔ Relation.differs = .differs ∧ (∀ x ∈ ap.objectives, x.isNaN = false) ∧
        ∀ j other side, j ≠ 1 → undefinedSides.constraints[j]? = some other → ap.sides[j]? = some side →
          other.relation.holds side.1 side.2 = true) := by
  have hundefined : Undefined ((Scorer.ofProblem undefinedSides).bindings [.binary true]) "y" := by decide +kernel
  have hk : undefinedSides.constraints[1]? = some ⟨"y", .differs, "0"⟩ := rfl
  obtain ⟨ap, stream', happraise⟩ : ∃ ap stream',
      ((Scorer.ofProblem undefinedSides).appraise [.binary true]).run (.ofSeed 0) = (ap, stream') := ⟨_, _, rfl⟩
  exact ⟨hk, ap, stream', happraise, .inl hundefined, evaluate_failing hk happraise (.inl hundefined)⟩

/-- Every constraint fails, and all of them are kept. -/
theorem feasible_undefinedSides : ∃ ap stream' c,
    ((Scorer.ofProblem undefinedSides).appraise [.binary true]).run (.ofSeed 0) = (ap, stream') ∧
    ((Scorer.ofProblem undefinedSides).evaluate [.binary true]).run (.ofSeed 0) = (c, stream') ∧
    (∀ x ∈ ap.objectives, x.isNaN = false) ∧
    (∀ (i : Nat) (k : Constraint), undefinedSides.constraints[i]? = some k →
      k.Fails ((Scorer.ofProblem undefinedSides).bindings [.binary true]) ap.sides[i]?) ∧
    c.feasible = true ∧ c.violations = [0.0, 0.0, 0.0] := by
  obtain ⟨stream', hrun⟩ : ∃ stream', ((Scorer.ofProblem undefinedSides).appraise [.binary true]).run (.ofSeed 0) =
      (⟨[1.0], [(Number.nan, 0.0), (Number.nan, 0.0), (1.0, Number.nan)]⟩, stream') := by
    refine ⟨_, Prod.ext ?_ rfl⟩
    decide +kernel
  refine ⟨_, stream', _, hrun, Scorer.run_evaluate hrun, by decide, ?_, by decide +kernel, by decide +kernel⟩
  intro i k hk
  match i with
  | 0 =>
    cases hk
    exact .inr (.inr ⟨_, rfl, .inl (by decide)⟩)
  | 1 =>
    cases hk
    exact .inl (by decide +kernel)
  | 2 =>
    cases hk
    exact .inr (.inl (by decide +kernel))
  | _ + 3 => cases hk

end Evaluations

end ParetoSweep
