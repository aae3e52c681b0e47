import Mathlib.Data.List.TakeWhile
import ParetoSweep.Proofs.Candidate.Randomness
import ParetoSweep.Proofs.Formula.Filling
import ParetoSweep.Proofs.Formula.Height

/-!
# What an evaluation draws

An evaluation goes through the marks of a term up to the first name that has no value (`Mark.reached`). It draws once
for each call of `random` among them and for nothing else, and it fails exactly if there is such a name. What it comes
to is what the term comes to with the numbers drawn in place of these calls, which does not look at random numbers any
more. `Traces` says this of any computation and its counterpart with numbers given beforehand; it goes along with the
steps that evaluations are made of, hence with all terms (`traces_eval`).
-/

namespace ParetoSweep

/-! ## Several draws -/

namespace Stream

/-- Draws some numbers, one after another. -/
def drawMany : (n : Nat) → StateM Stream (List Float)
  | 0 => pure []
  | n + 1 => do
    let x ← draw
    let xs ← drawMany n
    return x :: xs

section DrawMany

variable {n : Nat} {s s' : Stream} {xs : List Float}

theorem drawMany_zero_eq (h : (drawMany 0).run s = (xs, s')) : xs = [] ∧ s = s' := by
  cases h
  exact ⟨rfl, rfl⟩

theorem drawMany_succ_eq (h : (drawMany (n + 1)).run s = (xs, s')) : ∃ x s₁ xs', draw.run s = (x, s₁) ∧
    (drawMany n).run s₁ = (xs', s') ∧ xs = x :: xs' := by
  cases h
  exact ⟨_, _, _, rfl, rfl, rfl⟩

theorem length_drawMany (h : (drawMany n).run s = (xs, s')) : xs.length = n := by
  induction n generalizing s xs with
  | zero =>
    obtain ⟨rfl, -⟩ := drawMany_zero_eq h
    rfl
  | succ n ih =>
    obtain ⟨x, s₁, xs', -, hrest, rfl⟩ := drawMany_succ_eq h
    simp [ih hrest]

/-- Some draws and then some more. -/
theorem drawMany_add_eq {m : Nat} (h : (drawMany (m + n)).run s = (xs, s')) :
    ∃ ys s₁ zs, (drawMany m).run s = (ys, s₁) ∧ (drawMany n).run s₁ = (zs, s') ∧ xs = ys ++ zs := by
  induction m generalizing s xs with
  | zero => exact ⟨[], s, xs, rfl, by rwa [Nat.zero_add] at h, rfl⟩
  | succ m ih =>
    rw [Nat.succ_add] at h
    obtain ⟨x, s₁, xs', hdraw, hrest, rfl⟩ := drawMany_succ_eq h
    obtain ⟨ys, s₂, zs, hys, hzs, rfl⟩ := ih hrest
    refine ⟨x :: ys, s₂, zs, ?_, hzs, rfl⟩
    rw [drawMany, run_bind_of_eq hdraw, run_bind_of_eq hys]
    rfl

end DrawMany

end Stream

/-! ## The marks that are reached -/

namespace Mark

/-- Whether a mark is a name without a value. -/
def isUnbound (bindings : Bindings) : Mark → Bool
  | name word => (bindings.lookup word).isNone
  | draw => false

/-- The first name without a value. -/
def unbound? (bindings : Bindings) (ms : List Mark) : Option String :=
  (names ms).find? fun word => (bindings.lookup word).isNone

/-- The marks in front of the first name without a value, all of them if there is none. -/
def reached (bindings : Bindings) (ms : List Mark) : List Mark := ms.takeWhile fun m => !m.isUnbound bindings

section Reached

variable {bindings : Bindings} {ms ns : List Mark} {word : String}

theorem unbound?_append : unbound? bindings (ms ++ ns) = (unbound? bindings ms).or (unbound? bindings ns) := by
  simp [unbound?]

theorem unbound?_eq_none_iff : unbound? bindings ms = none ↔ ∀ m ∈ ms, m.isUnbound bindings = false := by
  induction ms with
  | nil => simp [unbound?]
  | cons m ms ih =>
    rw [← List.singleton_append, unbound?_append, Option.or_eq_none_iff, ih]
    cases m <;> simp [unbound?, names, name?, isUnbound]

theorem reached_of_none (h : unbound? bindings ms = none) : reached bindings ms = ms := by
  rw [reached, List.takeWhile_eq_self_iff]
  intro m hm
  simp [unbound?_eq_none_iff.mp h m hm]

theorem reached_append_of_none (h : unbound? bindings ms = none) :
    reached bindings (ms ++ ns) = ms ++ reached bindings ns := by
  refine List.takeWhile_append_of_pos ?_
  intro m hm
  simp [unbound?_eq_none_iff.mp h m hm]

theorem reached_append_of_some (h : unbound? bindings ms = some word) :
    reached bindings (ms ++ ns) = reached bindings ms := by
  rw [reached, List.takeWhile_append, if_neg]
  · rfl
  · intro hlength
    have hall : ms.takeWhile (fun m => !m.isUnbound bindings) = ms :=
      (List.takeWhile_prefix _).eq_of_length hlength
    rw [List.takeWhile_eq_self_iff] at hall
    have hnone : unbound? bindings ms = none := unbound?_eq_none_iff.mpr fun m hm => by simpa using hall m hm
    rw [hnone] at h
    cases h

end Reached

/-- An outcome is a value if all names have values, and otherwise the fault about the first one that has none. -/
def Reports {α : Type} (bindings : Bindings) (ms : List Mark) (outcome : Except Fault α) : Prop :=
  match unbound? bindings ms with
  | none => ∃ a, outcome = .ok a
  | some word => outcome = .error (.unknownName word)

end Mark

/-! ## Computations along marks -/

open Mark

/-- A computation goes along some marks, and its counterpart does the same with numbers that are given beforehand: it
looks at no more of them than there are draws, and if they are those that the computation would draw then it has the
same outcome without drawing. -/
structure Traces {α : Type} (bindings : Bindings) (ms : List Mark) (x : Evaluation α) (y : List Float → Evaluation α) :
    Prop where
  take : ∀ xs, y (xs.take (draws ms)) = y xs
  run : ∀ s xs s', (Stream.drawMany (draws (reached bindings ms))).run s = (xs, s') → ∃ outcome,
    Reports bindings ms outcome ∧ (y xs).run = pure outcome ∧ x.run s = (outcome, s')

section Traces

variable {α β : Type} {bindings : Bindings} {ms ns : List Mark}

/-- A value. -/
theorem traces_pure (a : α) : Traces bindings [] (pure a) fun _ => pure a where
  take := fun _ => rfl
  run := by
    intro s xs s' h
    obtain ⟨-, rfl⟩ := Stream.drawMany_zero_eq h
    exact ⟨.ok a, ⟨a, rfl⟩, rfl, rfl⟩

/-- One computation after another one. -/
theorem traces_bind {x : Evaluation α} {y : List Float → Evaluation α} {f : α → Evaluation β}
    {g : α → List Float → Evaluation β} (hx : Traces bindings ms x y) (hf : ∀ a, Traces bindings ns (f a) (g a)) :
    Traces bindings (ms ++ ns) (x >>= f) fun xs => y xs >>= fun a => g a (xs.drop (draws ms)) where
  take := by
    intro xs
    have hleft : y (xs.take (draws ms + draws ns)) = y xs := by
      rw [← hx.take, List.take_take, Nat.min_eq_left (Nat.le_add_right ..), hx.take]
    have hright : ∀ a, g a ((xs.take (draws ms + draws ns)).drop (draws ms)) = g a (xs.drop (draws ms)) := by
      intro a
      rw [List.drop_take, Nat.add_sub_cancel_left, (hf a).take]
    simp only [draws_append, hleft, hright]
  run := by
    intro s xs s' h
    cases hunbound : unbound? bindings ms with
    | some word =>
      -- the first computation fails, and the second one is not reached
      rw [reached_append_of_some hunbound] at h
      obtain ⟨outcome, hreports, hy, hrun⟩ := hx.run s xs s' h
      simp only [Reports, hunbound] at hreports
      subst hreports
      refine ⟨.error (.unknownName word), ?_, ?_, run_bind_of_error hrun⟩
      · simp [Reports, unbound?_append, hunbound]
      · simp [ExceptT.run_bind, hy]
    | none =>
      rw [reached_append_of_none hunbound, draws_append] at h
      obtain ⟨ys, s₁, zs, hys, hzs, rfl⟩ := Stream.drawMany_add_eq h
      have hlength := Stream.length_drawMany hys
      obtain ⟨outcome, hreports, hy, hrun⟩ := hx.run s ys s₁ (by rwa [reached_of_none hunbound])
      simp only [Reports, hunbound] at hreports
      obtain ⟨a, rfl⟩ := hreports
      obtain ⟨outcome', hreports', hg, hrun'⟩ := (hf a).run s₁ zs s' hzs
      have hfirst : y (ys ++ zs) = y ys := by rw [← hx.take, ← hlength, List.take_left]
      refine ⟨outcome', ?_, ?_, ?_⟩
      · simpa [Reports, unbound?_append, hunbound] using hreports'
      · rw [hfirst, ExceptT.run_bind, hy, pure_bind, ← hlength, List.drop_left]
        exact hg
      · rw [run_bind_of_ok hrun, hrun']

/-- The value of a name. -/
theorem traces_named (word : String) : Traces bindings [.name word] (Term.eval bindings (.named word))
    fun _ => Term.eval bindings (.named word) where
  take := fun _ => rfl
  run := by
    intro s xs s' h
    have hdraws : draws (reached bindings [.name word]) = 0 := by
      cases hlookup : bindings.lookup word <;> simp [reached, isUnbound, hlookup, draws]
    rw [hdraws] at h
    obtain ⟨-, rfl⟩ := Stream.drawMany_zero_eq h
    rw [Term.eval]
    cases hlookup : bindings.lookup word with
    | none => exact ⟨.error (.unknownName word), by simp [Reports, unbound?, names, name?, hlookup], rfl, rfl⟩
    | some x => exact ⟨.ok x, by simp [Reports, unbound?, names, name?, hlookup], rfl, rfl⟩

/-- One draw, or the first of the numbers given beforehand. -/
theorem traces_draw : Traces bindings [.draw] (monadLift Stream.draw : Evaluation Float) fun
    | [] => monadLift Stream.draw
    | x :: _ => pure x where
  take := by
    intro xs
    cases xs <;> rfl
  run := by
    intro s xs s' h
    obtain ⟨x, s₁, xs', hdraw, hrest, rfl⟩ := Stream.drawMany_succ_eq h
    obtain ⟨-, rfl⟩ := Stream.drawMany_zero_eq hrest
    cases hdraw
    exact ⟨.ok _, ⟨_, rfl⟩, rfl, rfl⟩

/-- A function that does not draw. -/
theorem traces_call {f : Builtin} (hf : f ≠ .random) (xs : List Float) :
    Traces bindings [] (monadLift (f.call xs) : Evaluation Float) fun _ => monadLift (f.call xs) := by
  obtain ⟨a, ha⟩ := steady_call hf xs
  rw [ha]
  exact traces_pure a

mutual

/-- **An evaluation draws for the calls of `random` that it reaches.** It goes along the marks of the term, and so does
the evaluation of the term with numbers in place of the calls. -/
theorem traces_eval (bindings : Bindings) : (t : Term) → t.Saturated →
    Traces bindings t.marks (t.eval bindings) fun xs => (t.fill xs).eval bindings
  | .number value, _ => by
    simp only [Term.marks, Term.fill, Term.eval]
    exact traces_pure value
  | .named word, _ => by
    simp only [Term.marks, Term.fill]
    exact traces_named word
  | .negate inner, h => by
    rw [Term.Saturated] at h
    have hinner := traces_bind (traces_eval bindings inner h) fun x => traces_pure (-x)
    simpa only [Term.marks, Term.fill, Term.eval, List.append_nil] using hinner
  | .binary op left right, h => by
    obtain ⟨hleft, hright⟩ := h
    have hboth := traces_bind (traces_eval bindings left hleft) fun x =>
      traces_bind (traces_eval bindings right hright) fun y => traces_pure (op.apply x y)
    simpa only [Term.marks, Term.draws, Term.fill, Term.eval, List.append_nil] using hboth
  | .call function args, h => by
    obtain ⟨hadmits, hargs⟩ := h
    by_cases hrandom : function = .random
    · subst hrandom
      obtain rfl := Term.eq_nil_of_admits hadmits
      have hcall : Term.eval bindings (.call .random []) = monadLift Stream.draw := by
        simp [Term.eval, Term.evalAll, Builtin.call]
      have hdraw : Traces bindings [.draw] _ _ := traces_draw
      simp only [Term.marks, if_pos, Term.allMarks, List.append_nil, hcall]
      convert hdraw using 2 with xs
      cases xs with
      | nil => rw [Term.fill, if_pos rfl, hcall]
      | cons x xs => rw [Term.fill, if_pos rfl, Term.eval]
    · have hcall := traces_bind (traces_evalAll bindings args hargs) fun xs => traces_call hrandom xs
      simpa only [Term.marks, if_neg hrandom, List.nil_append, Term.fill_call hrandom, Term.eval, List.append_nil]
        using hcall

theorem traces_evalAll (bindings : Bindings) : (ts : List Term) → Term.AllSaturated ts →
    Traces bindings (Term.allMarks ts) (Term.evalAll bindings ts) fun xs => Term.evalAll bindings (Term.fillAll ts xs)
  | [], _ => by
    simp only [Term.allMarks, Term.fillAll, Term.evalAll]
    exact traces_pure []
  | t :: ts, h => by
    obtain ⟨hhead, htail⟩ := h
    have hboth := traces_bind (traces_eval bindings t hhead) fun x =>
      traces_bind (traces_evalAll bindings ts htail) fun xs => traces_pure (x :: xs)
    simpa only [Term.allMarks, Term.draws, Term.fillAll, Term.evalAll, List.append_nil] using hboth

end

end Traces

/-! ## Formulas -/

section Formulas

variable {source : String} {formula : Formula} {bindings : Bindings}

/-- The tokens of a formula that is read have the marks of its term, and its calls are right. -/
theorem exists_marks (h : Formula.parse source = .ok formula) : ∃ tokens, Token.scan source = .ok tokens ∧
    Token.marks (tokens.map Token.kind) = formula.term.marks ∧ formula.term.Saturated := by
  obtain ⟨tokens, hscan, d, hkinds, hterm, -⟩ := exists_derivation h
  refine ⟨tokens, hscan, ?_, d.saturated_of_term hterm⟩
  rw [← hkinds, d.marks_of_term hterm]

/-- A formula has a value iff all its names have, and otherwise the first one that has none is reported. -/
theorem reports_eval (h : Formula.parse source = .ok formula) (bindings : Bindings) (s : Stream) :
    Reports bindings formula.term.marks ((formula.eval bindings).run s).1 := by
  obtain ⟨-, -, -, hsaturated⟩ := exists_marks h
  obtain ⟨outcome, hreports, -, hrun⟩ := (traces_eval bindings formula.term hsaturated).run s _ _ rfl
  rw [Formula.eval, hrun]
  exact hreports

/-- **Draws are made in source order, each call of `random` in front of the first name without a value takes one, and
nothing else does.** The formula comes to what the text comes to with the numbers drawn in place of these calls, which
does not look at the random numbers, and it leaves the stream behind the numbers drawn, also if it fails. -/
theorem eval_draws (h : Formula.parse source = .ok formula) (bindings : Bindings) (s : Stream) :
    ∃ tokens, Token.scan source = .ok tokens ∧ ∃ xs s' filled outcome,
      (Stream.drawMany (draws (reached bindings (Token.marks (tokens.map Token.kind))))).run s = (xs, s') ∧
      (∀ tokens', tokens'.map Token.kind = Token.fill xs (tokens.map Token.kind) →
        Term.ofTokens tokens' = .ok filled) ∧
      (filled.eval bindings).run = pure outcome ∧ (formula.eval bindings).run s = (outcome, s') := by
  obtain ⟨tokens, hscan, d, hkinds, hterm, hneed⟩ := exists_derivation h
  refine ⟨tokens, hscan, ?_⟩
  rw [← hkinds, d.marks_of_term hterm]
  obtain ⟨xs, s', hdrawn⟩ : ∃ xs s', (Stream.drawMany (draws (reached bindings formula.term.marks))).run s = (xs, s') :=
    ⟨_, _, rfl⟩
  obtain ⟨outcome, -, hfilled, hrun⟩ :=
    (traces_eval bindings formula.term (d.saturated_of_term hterm)).run s xs s' hdrawn
  obtain ⟨d', hd'⟩ := d.exists_filled hterm xs
  refine ⟨xs, s', formula.term.fill xs, outcome, hdrawn, ?_, hfilled, hrun⟩
  intro tokens' htokens'
  have hkinds' : d'.kinds = tokens'.map Token.kind := by
    have hfill := hd'.kinds [] Token.notCalled_nil
    rw [htokens', ← List.append_nil d.kinds, hfill]
    simp
  rw [ofTokens_of_derivation hkinds' hd'.term, hd'.need, if_pos hneed]

/-- Two draws, and a third one behind a name without a value. -/
theorem eval_draws_missingName : ∃ formula, Formula.parse "random()-max(random(),y)*random()" = .ok formula ∧
    ∃ tokens, Token.scan "random()-max(random(),y)*random()" = .ok tokens ∧ ∃ xs s' filled outcome,
      (Stream.drawMany (draws (reached [("x", 1)] (Token.marks (tokens.map Token.kind))))).run (.ofSeed 7) = (xs, s') ∧
      (∀ tokens', tokens'.map Token.kind = Token.fill xs (tokens.map Token.kind) →
        Term.ofTokens tokens' = .ok filled) ∧
      (filled.eval [("x", 1)]).run = pure outcome ∧ (formula.eval [("x", 1)]).run (.ofSeed 7) = (outcome, s') := by
  have hok : (Formula.parse "random()-max(random(),y)*random()").isOk = true := by decide +kernel
  obtain ⟨formula, hparse⟩ := exists_eq_ok hok
  exact ⟨formula, hparse, eval_draws hparse _ _⟩

end Formulas

end ParetoSweep
