import ParetoSweep.Proofs.Formula.Draws

/-!
# What a check foretells

A check evaluates a formula once, with the value one for every given name. Whether an evaluation succeeds depends on the
names that have values and on nothing else (`reports_eval`), so the check foretells the outcome of every evaluation
under bindings of just these names, down to the fault (`check_eq`).
-/

namespace ParetoSweep

open Mark

section Check

variable {source : String} {formula : Formula} {names : List String} {bindings : Bindings} {ms : List Mark}

/-- The bindings give values to the given names and to no others. -/
def Binds (bindings : Bindings) (names : List String) : Prop :=
  ∀ name, (bindings.lookup name).isSome = true ↔ name ∈ names

/-- The bindings of a check give values to the names that are checked for. -/
theorem binds_ones (names : List String) : Binds (names.map fun name => (name, 1.0)) names := by
  intro word
  induction names with
  | nil => simp
  | cons name names ih =>
    rw [List.map_cons, List.lookup_cons]
    by_cases hword : word = name
    · simp [hword]
    · simp [beq_eq_false_iff_ne.mpr hword, ih, hword]

/-- The first name without a value is the first one that is not among the names that have values. -/
theorem Binds.unbound? (h : Binds bindings names) :
    Mark.unbound? bindings ms = (Mark.names ms).find? (· ∉ names) := by
  rw [Mark.unbound?]
  congr 1
  funext word
  have hword := h word
  cases hlookup : bindings.lookup word <;> simp [hlookup] at hword ⊢ <;> exact hword

/-- What is left of an outcome when only its fault is looked at. -/
theorem map_of_reports {α : Type} {outcome : Except Fault α} (h : Reports bindings ms outcome) :
    outcome.map (fun _ => ()) = match Mark.unbound? bindings ms with
      | none => .ok ()
      | some word => .error (.unknownName word) := by
  unfold Reports at h
  cases hunbound : Mark.unbound? bindings ms with
  | none =>
    rw [hunbound] at h
    obtain ⟨a, rfl⟩ := h
    rfl
  | some word =>
    rw [hunbound] at h
    subst h
    rfl

theorem evaluate_of_parse (h : Formula.parse source = .ok formula) (bindings : Bindings) :
    Formula.evaluate source bindings = formula.eval bindings := by
  rw [Formula.evaluate, h]

theorem run_evaluate_of_fault {fault : Fault} (h : Formula.parse source = .error fault) (bindings : Bindings)
    (s : Stream) : (Formula.evaluate source bindings).run s = (.error fault, s) := by
  rw [Formula.evaluate, h]
  rfl

/-- The names that a formula mentions decide whether it has a value. -/
theorem map_evaluate (h : Formula.parse source = .ok formula) (hbinds : Binds bindings names) (s : Stream) :
    ((Formula.evaluate source bindings).run s).1.map (fun _ => ()) =
      match (Mark.names formula.term.marks).find? (· ∉ names) with
      | none => .ok ()
      | some word => .error (.unknownName word) := by
  rw [evaluate_of_parse h, map_of_reports (reports_eval h bindings s), hbinds.unbound?]

/-- **A check foretells evaluations.** It succeeds iff an evaluation does under any bindings of the names that it is
made for and with any random numbers, and they fail with the same fault. If the text can be read, this is that the
first name in it is unknown which is no constant, is not called and is not among the names given. -/
theorem check_eq (source : String) (hbinds : Binds bindings names) (s : Stream) :
    Formula.check source names = ((Formula.evaluate source bindings).run s).1.map (fun _ => ()) ∧
      ∀ formula, Formula.parse source = .ok formula → ∃ tokens, Token.scan source = .ok tokens ∧
        Formula.check source names =
          match (Mark.names (Token.marks (tokens.map Token.kind))).find? (· ∉ names) with
          | none => .ok ()
          | some word => .error (.unknownName word) := by
  cases hparse : Formula.parse source with
  | error fault =>
    refine ⟨?_, nofun⟩
    rw [run_evaluate_of_fault hparse, Formula.check]
    simp only [run_evaluate_of_fault hparse]
  | ok formula =>
    have hcheck : Formula.check source names = _ := map_evaluate hparse (binds_ones names) (.ofSeed 0)
    refine ⟨hcheck.trans (map_evaluate hparse hbinds s).symm, ?_⟩
    rintro _ ⟨⟩
    obtain ⟨tokens, hscan, hmarks, -⟩ := exists_marks hparse
    exact ⟨tokens, hscan, by rw [hmarks, hcheck]⟩

/-- The first unknown name comes after a constant, a call, a draw and a name with a value. -/
theorem check_eq_secondName :
    Binds [("x", Number.nan)] ["x"] ∧
    Formula.check "e+abs(x)-random()*y^z" ["x"] =
      ((Formula.evaluate "e+abs(x)-random()*y^z" [("x", Number.nan)]).run (.ofSeed 3)).1.map (fun _ => ()) ∧
    ∀ formula, Formula.parse "e+abs(x)-random()*y^z" = .ok formula → ∃ tokens,
      Token.scan "e+abs(x)-random()*y^z" = .ok tokens ∧ Formula.check "e+abs(x)-random()*y^z" ["x"] =
        match (Mark.names (Token.marks (tokens.map Token.kind))).find? (· ∉ ["x"]) with
        | none => .ok ()
        | some word => .error (.unknownName word) := by
  have hbinds : Binds [("x", Number.nan)] ["x"] := by
    intro word
    by_cases hword : word = "x"
    · simp [hword]
    · simp [List.lookup_cons, beq_eq_false_iff_ne.mpr hword, hword]
  exact ⟨hbinds, check_eq _ hbinds _⟩

end Check

end ParetoSweep
