/-!
# Computations in steps

A computation that may fail succeeds iff every step does, and fails with the first step that does; one that has a state
hands it on from step to step. What a kind of judgement says of a loop follows from what it says of single steps
(`mapM_of_steps`).
-/

namespace ParetoSweep

section Failures

variable {ε α β : Type} {x : Except ε α} {f : α → Except ε β}

@[simp] theorem ok_bind (a : α) (f : α → Except ε β) : (Except.ok a : Except ε α) >>= f = f a := rfl

@[simp] theorem error_bind (e : ε) (f : α → Except ε β) : (Except.error e : Except ε α) >>= f = .error e := rfl

theorem bind_eq_ok {b : β} : x >>= f = .ok b ↔ ∃ a, x = .ok a ∧ f a = .ok b := by
  cases x with
  | ok a => exact ⟨fun h => ⟨a, rfl, h⟩, fun ⟨_, ha, h⟩ => by cases ha; exact h⟩
  | error e => exact ⟨fun h => (nomatch h), fun ⟨_, ha, _⟩ => nomatch ha⟩

theorem exists_eq_ok (h : x.isOk = true) : ∃ a, x = .ok a := by
  cases x with
  | ok a => exact ⟨a, rfl⟩
  | error e => cases h

theorem bind_eq_error {e : ε} : x >>= f = .error e ↔ x = .error e ∨ ∃ a, x = .ok a ∧ f a = .error e := by
  cases x with
  | ok a => simp
  | error e' => simp

end Failures

section Runs

variable {ε σ α β : Type} {s s' : σ}

/-- What follows a computation goes on with its result and with the state that it leaves. -/
theorem run_bind_of_eq {x : StateM σ α} {f : α → StateM σ β} {a : α} (h : x.run s = (a, s')) :
    (x >>= f).run s = (f a).run s' := by
  rw [StateT.run_bind, h]
  rfl

/-- A computation that cannot fail, as one that could. -/
theorem run_lift_of_eq {x : StateM σ α} {a : α} (h : x.run s = (a, s')) :
    (monadLift x : ExceptT ε (StateM σ) α).run s = (.ok a, s') := by
  change (x >>= fun a => pure (Except.ok a)).run s = _
  rw [run_bind_of_eq h]
  rfl

variable {x : ExceptT ε (StateM σ) α} {f : α → ExceptT ε (StateM σ) β}

theorem run_bind_of_ok {a : α} (h : x.run s = (.ok a, s')) : (x >>= f).run s = (f a).run s' := by
  rw [ExceptT.run_bind]
  exact run_bind_of_eq h

theorem run_bind_of_error {e : ε} (h : x.run s = (.error e, s')) : (x >>= f).run s = (.error e, s') := by
  rw [ExceptT.run_bind]
  exact run_bind_of_eq h

end Runs

section Loops

variable {m : Type → Type} [Monad m] [LawfulMonad m] {α β : Type} {C : {γ : Type} → m γ → (γ → Prop) → Prop}

/-- A judgement about computations and what holds of their results, if it goes along with steps, goes along with loops:
there is one result for each item. -/
theorem mapM_of_steps (hpure : ∀ {γ : Type} {c : γ} {P : γ → Prop}, P c → C (pure c) P)
    (hbind : ∀ {γ δ : Type} {x : m γ} {f : γ → m δ} {P : γ → Prop} {Q : δ → Prop},
      C x P → (∀ c, P c → C (f c) Q) → C (x >>= f) Q)
    {f : α → m β} {P : β → Prop} {as : List α} (h : ∀ a ∈ as, C (f a) P) :
    C (as.mapM f) fun bs => bs.length = as.length ∧ ∀ b ∈ bs, P b := by
  induction as with
  | nil => exact hpure ⟨rfl, fun _ h => nomatch h⟩
  | cons a as ih =>
    rw [List.mapM_cons]
    refine hbind (h a List.mem_cons_self) fun b hb => ?_
    refine hbind (ih fun c hc => h c (List.mem_cons_of_mem a hc)) fun bs hbs => ?_
    exact hpure ⟨congrArg (· + 1) hbs.1, List.forall_mem_cons.mpr ⟨hb, hbs.2⟩⟩

/-- A loop over steps that only compute is a computation as well. -/
theorem mapM_eq_pure {f : α → m β} {g : α → β} {as : List α} (h : ∀ a ∈ as, f a = pure (g a)) :
    as.mapM f = pure (as.map g) := by
  induction as with
  | nil => rfl
  | cons a as ih =>
    rw [List.mapM_cons, h a List.mem_cons_self, ih fun b hb => h b (List.mem_cons_of_mem a hb), pure_bind, pure_bind,
      List.map_cons]

/-- A loop whose steps are those of another loop with something done to their results. -/
theorem mapM_eq_map {γ : Type} {f : α → m γ} {g : α → m β} {h : α → β → γ} {as : List α}
    (step : ∀ a ∈ as, f a = h a <$> g a) : as.mapM f = List.zipWith h as <$> as.mapM g := by
  induction as with
  | nil => simp
  | cons a as ih =>
    have htail := ih fun b hb => step b (List.mem_cons_of_mem a hb)
    simp [List.mapM_cons, step a List.mem_cons_self, htail]

/-- A loop over numbered items of which one is replaced by an item that makes the same step under every number. -/
theorem mapM_zipIdx_set {f : α × Nat → m β} {as : List α} {a b : α} {i : Nat} (ha : as[i]? = some a)
    (step : ∀ k, f (b, k) = f (a, k)) (n : Nat) : ((as.set i b).zipIdx n).mapM f = (as.zipIdx n).mapM f := by
  induction as generalizing i n with
  | nil => cases ha
  | cons c as ih =>
    cases i with
    | zero =>
      cases ha
      rw [List.set_cons_zero, List.zipIdx_cons, List.zipIdx_cons, List.mapM_cons, List.mapM_cons, step]
    | succ i =>
      rw [List.set_cons_succ, List.zipIdx_cons, List.zipIdx_cons, List.mapM_cons, List.mapM_cons, ih ha]

end Loops
end ParetoSweep
