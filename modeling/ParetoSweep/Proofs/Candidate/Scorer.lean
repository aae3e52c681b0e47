import ParetoSweep.Candidate.Scorer
import ParetoSweep.Proofs.Bind
import ParetoSweep.Proofs.Front.Dominance
import ParetoSweep.Proofs.Number.Arithmetic

/-!
# Evaluated candidates compare

Whatever the formulas of a problem are and whatever random numbers are drawn, an evaluation makes a candidate with one
value for each objective in which nothing is NaN (`comparable_evaluate`): an objective that is NaN ends the evaluation,
and the violation of a constraint is a difference of numbers in strict order if it is a difference at all
(`isNaN_violation`).
-/

namespace ParetoSweep

open Number

/-! ## What holds of every result -/

/-- Whatever the random numbers are, the result has the property. -/
def Always {α : Type} (x : StateM Stream α) (P : α → Prop) : Prop := ∀ s, P (x.run s).1

section Always

variable {α β : Type}

theorem always_pure {a : α} {P : α → Prop} (h : P a) : Always (pure a) P := fun _ => h

theorem always_true (x : StateM Stream α) : Always x fun _ => True := fun _ => trivial

theorem always_bind {x : StateM Stream α} {f : α → StateM Stream β} {P : α → Prop} {Q : β → Prop} (hx : Always x P)
    (hf : ∀ a, P a → Always (f a) Q) : Always (x >>= f) Q := fun s => hf _ (hx s) (x.run s).2

/-- A computation for every item of a list. -/
theorem always_mapM {f : α → StateM Stream β} {P : β → Prop} {as : List α} (h : ∀ a ∈ as, Always (f a) P) :
    Always (as.mapM f) fun bs => bs.length = as.length ∧ ∀ b ∈ bs, P b :=
  mapM_of_steps (C := Always) always_pure always_bind h

/-- A computation for every item of a list, where what holds of a result depends on the item. -/
theorem always_forall₂ {f : α → StateM Stream β} {P : α → β → Prop} {as : List α} (h : ∀ a ∈ as, Always (f a) (P a)) :
    Always (as.mapM f) fun bs => List.Forall₂ P as bs := by
  induction as with
  | nil => exact always_pure .nil
  | cons a as ih =>
    rw [List.mapM_cons]
    refine always_bind (h a List.mem_cons_self) fun b hb => ?_
    refine always_bind (ih fun c hc => h c (List.mem_cons_of_mem a hc)) fun bs hbs => ?_
    exact always_pure (.cons hb hbs)

/-- The result, if there is one, has the property. -/
def AlwaysOk {ε : Type} (x : ExceptT ε (StateM Stream) α) (P : α → Prop) : Prop :=
  Always x.run fun r => ∀ a, r = .ok a → P a

variable {ε : Type}

theorem alwaysOk_pure {a : α} {P : α → Prop} (h : P a) : AlwaysOk (ε := ε) (pure a) P := by
  refine always_pure fun b hb => ?_
  cases hb
  exact h

theorem alwaysOk_bind {x : ExceptT ε (StateM Stream) α} {f : α → ExceptT ε (StateM Stream) β} {P : α → Prop}
    {Q : β → Prop} (hx : AlwaysOk x P) (hf : ∀ a, P a → AlwaysOk (f a) Q) : AlwaysOk (x >>= f) Q := by
  unfold AlwaysOk
  rw [ExceptT.run_bind]
  refine always_bind hx fun r hr => ?_
  cases r with
  | ok a => exact hf a (hr a rfl)
  | error e => exact always_pure fun _ h => nomatch h

theorem alwaysOk_mapM {f : α → ExceptT ε (StateM Stream) β} {P : β → Prop} {as : List α}
    (h : ∀ a ∈ as, AlwaysOk (f a) P) : AlwaysOk (as.mapM f) fun bs => bs.length = as.length ∧ ∀ b ∈ bs, P b :=
  mapM_of_steps (C := AlwaysOk) alwaysOk_pure alwaysOk_bind h

end Always

/-! ## Numbers -/

theorem isNaN_oriented (s : Sense) (x : Float) : (s.oriented x).isNaN = x.isNaN := by
  cases s with
  | minimize => rfl
  | maximize => exact isNaN_neg x

theorem rank_lt_of_not_le {x y : Float} (hle : x ≤ y) (hnle : ¬ y ≤ x) : rank x < rank y := by
  obtain ⟨hx, hy⟩ := isNaN_of_le hle
  rw [le_iff_rank hy hx] at hnle
  omega

/-- Sides that are ordered the wrong way round are numbers, and not equal. -/
theorem rank_ne_of_opposed {r : Relation} {x y : Float} (hholds : ¬ r.holds x y = true)
    (hopposed : r.opposed x y = true) : x.isNaN = false ∧ y.isNaN = false ∧ rank x ≠ rank y := by
  cases r with
  | atMost =>
    have hle : y ≤ x := of_decide_eq_true hopposed
    have hlt := rank_lt_of_not_le hle fun h => hholds (decide_eq_true h)
    exact ⟨(isNaN_of_le hle).2, (isNaN_of_le hle).1, by omega⟩
  | atLeast =>
    have hle : x ≤ y := of_decide_eq_true hopposed
    have hlt := rank_lt_of_not_le hle fun h => hholds (decide_eq_true h)
    exact ⟨(isNaN_of_le hle).1, (isNaN_of_le hle).2, by omega⟩
  | differs => cases hopposed

/-- A violation is a number, also if the sides are not. -/
theorem isNaN_violation (r : Relation) (x y : Float) : (r.violation x y).isNaN = false := by
  unfold Relation.violation
  split
  · decide
  · rename_i hholds
    split
    · rename_i hopposed
      obtain ⟨hx, hy, hne⟩ := rank_ne_of_opposed hholds hopposed
      exact isNaN_sub hx hy hne
    · decide

/-- Absolute values of numbers are numbers, and not negative. -/
theorem forall_map_abs {xs : List Float} (h : ∀ x ∈ xs, x.isNaN = false) :
    ∀ y ∈ xs.map Float.abs, y.isNaN = false ∧ 0 ≤ rank y := by
  intro y hy
  obtain ⟨x, hx, rfl⟩ := List.mem_map.mp hy
  exact ⟨(isNaN_abs x).trans (h x hx), rank_abs_nonneg x⟩

/-! ## Evaluations -/

namespace Scorer

variable (s : Scorer) (bindings : Bindings) (a : Assignment)

/-- Objectives that all have values are numbers. -/
theorem alwaysOk_objectiveValues : AlwaysOk (s.objectiveValues bindings) fun xs =>
    xs.length = s.objectives.length ∧ ∀ x ∈ xs, x.isNaN = false := by
  unfold objectiveValues
  rw [← List.length_zipIdx (l := s.objectives) (i := 0)]
  refine alwaysOk_mapM ?_
  rintro ⟨⟨sense, r⟩, index⟩ -
  refine alwaysOk_bind (P := fun _ => True) (fun _ _ _ => trivial) fun x _ => ?_
  dsimp only
  split
  · exact fun _ _ h => nomatch h
  · rename_i hx
    exact alwaysOk_pure ((isNaN_oriented sense x).trans (Bool.of_not_eq_true hx))

theorem always_violationValues : Always (s.violationValues bindings) fun xs =>
    xs.length = s.constraints.length ∧ ∀ x ∈ xs, x.isNaN = false := by
  refine always_mapM fun c _ => ?_
  refine always_bind (always_true _) fun x _ => always_bind (always_true _) fun y _ => ?_
  exact always_pure (isNaN_violation c.relation x y)

theorem alwaysOk_scores : AlwaysOk (s.scores a) fun scores =>
    (scores.objectives.length = s.objectives.length ∧ ∀ x ∈ scores.objectives, x.isNaN = false) ∧
      scores.violations.length = s.constraints.length ∧ ∀ x ∈ scores.violations, x.isNaN = false := by
  refine alwaysOk_bind (s.alwaysOk_objectiveValues _) fun xs hxs => ?_
  refine alwaysOk_bind (P := fun ys => ys.length = s.constraints.length ∧ ∀ y ∈ ys, y.isNaN = false) ?_ fun ys hys => ?_
  · refine always_bind (s.always_violationValues _) fun ys hys => always_pure ?_
    rintro _ ⟨⟩
    exact hys
  · exact alwaysOk_pure ⟨hxs, hys⟩

/-- An evaluated candidate compares with every other one of the same problem. -/
theorem comparable_evaluate : Always (s.evaluate a) (Candidate.Comparable s.objectives.length) := by
  refine always_bind (s.alwaysOk_scores a) fun r hr => always_pure ?_
  cases r with
  | ok scores =>
    obtain ⟨⟨hlen, hobj⟩, -, hviol⟩ := hr scores rfl
    exact ⟨hlen, hobj, isNaN_total (forall_map_abs hviol)⟩
  | error index =>
    refine ⟨List.length_replicate, fun x hx => ?_, (by decide : Number.infinity.isNaN = false)⟩
    rw [List.eq_of_mem_replicate hx]
    decide

end Scorer
end ParetoSweep
