import ParetoSweep.Candidate.Scorer

/-!
# Evaluations without random numbers

`random` is the only function that looks at the stream of random numbers. A computation that does not look at it is
`Steady`: it equals a result. A term that does not call `random` is steady (`steady_eval`), and so is the evaluation of
assignments in a problem whose formulas do not (`steady_evaluate`).
-/

namespace ParetoSweep

/-! ## Calls of `random` -/

namespace Term

mutual

/-- Whether a term calls `random`. -/
def callsRandom : Term → Bool
  | number _ => false
  | named _ => false
  | negate inner => inner.callsRandom
  | binary _ left right => left.callsRandom || right.callsRandom
  | call function args => function == .random || anyCallsRandom args

/-- Whether some term calls `random`. -/
def anyCallsRandom : List Term → Bool
  | [] => false
  | t :: ts => t.callsRandom || anyCallsRandom ts

end

end Term

/-- The expressions of a problem. -/
def Problem.expressions (p : Problem) : List String :=
  p.objectives.map Objective.expression ++ p.constraints.flatMap fun c => [c.left, c.right]

/-- Whether a formula that can be read calls `random`. -/
def Reading.callsRandom : Reading → Bool
  | .ok formula => formula.term.callsRandom
  | .error _ => false

/-- No expression of the problem calls `random`. -/
def Problem.RandomFree (p : Problem) : Prop :=
  ∀ source ∈ p.expressions, Reading.callsRandom (Formula.parse source) = false

instance (p : Problem) : Decidable p.RandomFree := List.decidableBAll _ _

/-! ## Steady computations -/

/-- A computation that does not look at the random numbers. -/
def Steady {α : Type} (x : StateM Stream α) : Prop := ∃ a, x = pure a

section Steady

variable {α β : Type}

theorem steady_pure (a : α) : Steady (pure a) := ⟨a, rfl⟩

theorem steady_bind {x : StateM Stream α} {f : α → StateM Stream β} (hx : Steady x) (hf : ∀ a, Steady (f a)) :
    Steady (x >>= f) := by
  obtain ⟨a, rfl⟩ := hx
  rw [pure_bind]
  exact hf a

theorem steady_mapM {f : α → StateM Stream β} {as : List α} (h : ∀ a ∈ as, Steady (f a)) : Steady (as.mapM f) := by
  induction as with
  | nil => exact steady_pure _
  | cons a as ih =>
    rw [List.mapM_cons]
    refine steady_bind (h a List.mem_cons_self) fun b => ?_
    exact steady_bind (ih fun c hc => h c (List.mem_cons_of_mem a hc)) fun bs => steady_pure _

variable {ε : Type}

theorem steady_run_bind {x : ExceptT ε (StateM Stream) α} {f : α → ExceptT ε (StateM Stream) β} (hx : Steady x.run)
    (hf : ∀ a, Steady (f a).run) : Steady (x >>= f).run := by
  rw [ExceptT.run_bind]
  refine steady_bind hx fun r => ?_
  cases r with
  | ok a => exact hf a
  | error e => exact steady_pure _

theorem steady_run_lift {x : StateM Stream α} (hx : Steady x) : Steady (ExceptT.run (monadLift x : ExceptT ε _ α)) := by
  obtain ⟨a, rfl⟩ := hx
  exact steady_pure _

theorem steady_run_mapM {f : α → ExceptT ε (StateM Stream) β} {as : List α} (h : ∀ a ∈ as, Steady (f a).run) :
    Steady (as.mapM f).run := by
  induction as with
  | nil => exact steady_pure _
  | cons a as ih =>
    rw [List.mapM_cons]
    refine steady_run_bind (h a List.mem_cons_self) fun b => ?_
    exact steady_run_bind (ih fun c hc => h c (List.mem_cons_of_mem a hc)) fun bs => steady_pure _

end Steady

/-! ## Terms -/

theorem steady_call {f : Builtin} (hf : f ≠ .random) (xs : List Float) : Steady (f.call xs) := by
  cases f <;> first | exact absurd rfl hf | exact steady_pure _

mutual

/-- A term that does not call `random` has the same value under all random numbers. -/
theorem steady_eval (bindings : Bindings) : (t : Term) → t.callsRandom = false → Steady (t.eval bindings).run
  | .number value, _ => steady_pure _
  | .named name, _ => by
    rw [Term.eval]
    split <;> exact steady_pure _
  | .negate inner, h => by
    rw [Term.eval]
    exact steady_run_bind (steady_eval bindings inner h) fun x => steady_pure _
  | .binary op left right, h => by
    rw [Term.callsRandom, Bool.or_eq_false_iff] at h
    rw [Term.eval]
    refine steady_run_bind (steady_eval bindings left h.1) fun x => ?_
    exact steady_run_bind (steady_eval bindings right h.2) fun y => steady_pure _
  | .call function args, h => by
    rw [Term.callsRandom, Bool.or_eq_false_iff] at h
    rw [Term.eval]
    refine steady_run_bind (steady_evalAll bindings args h.2) fun xs => ?_
    exact steady_run_lift (steady_call (by simpa using h.1) xs)

theorem steady_evalAll (bindings : Bindings) :
    (ts : List Term) → Term.anyCallsRandom ts = false → Steady (Term.evalAll bindings ts).run
  | [], _ => steady_pure _
  | t :: ts, h => by
    rw [Term.anyCallsRandom, Bool.or_eq_false_iff] at h
    rw [Term.evalAll]
    refine steady_run_bind (steady_eval bindings t h.1) fun x => ?_
    exact steady_run_bind (steady_evalAll bindings ts h.2) fun xs => steady_pure _

end

/-! ## Assignments -/

theorem steady_value {r : Reading} (h : r.callsRandom = false) (bindings : Bindings) : Steady (r.value bindings) := by
  cases r with
  | ok formula => exact steady_bind (steady_eval bindings _ h) fun _ => steady_pure _
  | error fault => exact steady_pure _

namespace Scorer

variable {p : Problem}

/-- Without random numbers every assignment is evaluated to one candidate. -/
theorem steady_evaluate (h : p.RandomFree) (a : Assignment) : Steady ((ofProblem p).evaluate a) := by
  have hobjective : ∀ o ∈ p.objectives, ∀ b, Steady (Reading.value (Formula.parse o.expression) b) := fun o ho b =>
    steady_value (h _ (List.mem_append_left _ (List.mem_map_of_mem ho))) b
  have hside : ∀ c ∈ p.constraints, ∀ source ∈ [c.left, c.right], ∀ b,
      Steady (Reading.value (Formula.parse source) b) :=
    fun c hc source hsource b => steady_value (h _ (List.mem_append_right _ (List.mem_flatMap.mpr ⟨c, hc, hsource⟩))) b
  refine steady_bind (steady_run_bind (steady_run_mapM ?_) fun xs => ?_) fun r => steady_pure _
  · rintro ⟨⟨sense, r⟩, index⟩ hmem
    obtain ⟨o, ho, heq⟩ := List.mem_map.mp (List.fst_mem_of_mem_zipIdx hmem)
    cases heq
    refine steady_run_bind (steady_run_lift (hobjective o ho _)) fun x => ?_
    dsimp only
    split <;> exact steady_pure _
  · refine steady_run_bind (steady_run_lift (steady_mapM ?_)) fun ys => steady_pure _
    rintro _ hmem
    obtain ⟨c, hc, rfl⟩ := List.mem_map.mp hmem
    refine steady_bind (hside c hc c.left (by simp) _) fun x => ?_
    exact steady_bind (hside c hc c.right (by simp) _) fun y => steady_pure _

end Scorer
end ParetoSweep
