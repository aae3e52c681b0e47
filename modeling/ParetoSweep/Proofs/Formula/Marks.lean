import ParetoSweep.Proofs.Formula.Completeness

/-!
# Names and draws in source order

An evaluation can meet two things that its result depends on besides the text: a name that has to have a value, and a
call of `random`. They are the marks of a formula. The tokens have marks in the order in which they stand, the term has
marks in the order in which it is walked through, and these are the same (`marks_of_term`); the arguments of every call
of a term that is read are as many as its function takes (`saturated_of_term`).
-/

namespace ParetoSweep

/-! ## Marks -/

/-- What an evaluation may meet: a name that is no constant, or a call of `random`. -/
inductive Mark where
  | name (word : String)
  | draw
deriving DecidableEq, Repr

namespace Mark

/-- The name of a mark. -/
def name? : Mark → Option String
  | name word => some word
  | draw => none

/-- The names among marks, in order. -/
def names (ms : List Mark) : List String := ms.filterMap name?

/-- The number of draws among marks. -/
def draws (ms : List Mark) : Nat := ms.count draw

@[simp] theorem names_nil : names [] = [] := rfl

@[simp] theorem names_append (ms ns : List Mark) : names (ms ++ ns) = names ms ++ names ns := List.filterMap_append

@[simp] theorem draws_nil : draws [] = 0 := rfl

@[simp] theorem draws_append (ms ns : List Mark) : draws (ms ++ ns) = draws ms + draws ns := List.count_append

end Mark

namespace Token

/-- The marks of a token in front of other tokens: of a word that a round bracket follows, the draw if it calls
`random`, and of another word its name unless it is a constant. -/
def Kind.marks (k : Kind) (rest : List Kind) : List Mark :=
  match k with
  | .word name =>
    if rest.head? = some (.opening .round) then (if Builtin.ofName? name = some .random then [.draw] else [])
    else (if (constant? name).isSome then [] else [.name name])
  | _ => []

/-- The marks of tokens, in the order in which they stand. -/
def marks : List Kind → List Mark
  | [] => []
  | k :: ks => k.marks ks ++ marks ks

/-- A list of tokens in front of which a word is not called. -/
def NotCalled (ks : List Kind) : Prop := ks.head? ≠ some (.opening .round)

section Tokens

variable {k : Kind} {ks : List Kind} {word : String}

@[simp] theorem notCalled_nil : NotCalled [] := by simp [NotCalled]

@[simp] theorem notCalled_cons : NotCalled (k :: ks) ↔ k ≠ .opening .round := by simp [NotCalled]

@[simp] theorem marks_nil : marks [] = [] := rfl

/-- Only words have marks. -/
theorem marks_cons_of_not_word (h : ∀ word, k ≠ .word word) : marks (k :: ks) = marks ks := by
  cases k with
  | word word => exact absurd rfl (h word)
  | _ => rfl

theorem marks_word_of_notCalled (h : NotCalled ks) :
    marks (.word word :: ks) = (if (constant? word).isSome then [] else [.name word]) ++ marks ks := by
  rw [marks, Kind.marks, if_neg h]

theorem marks_word_opening : marks (.word word :: .opening .round :: ks) =
    (if Builtin.ofName? word = some .random then [.draw] else []) ++ marks ks := by
  simp [marks, Kind.marks]

end Tokens

end Token

namespace Term

mutual

/-- The marks of a term, from left to right. -/
def marks : Term → List Mark
  | number _ => []
  | named word => [.name word]
  | negate inner => inner.marks
  | binary _ left right => left.marks ++ right.marks
  | call function args => (if function = .random then [.draw] else []) ++ allMarks args

/-- The marks of terms, from left to right. -/
def allMarks : List Term → List Mark
  | [] => []
  | t :: ts => t.marks ++ allMarks ts

end

/-- The number of calls of `random` in a term. -/
def draws (t : Term) : Nat := Mark.draws t.marks

mutual

/-- Every function is called with as many arguments as it takes. -/
def Saturated : Term → Prop
  | number _ => True
  | named _ => True
  | negate inner => inner.Saturated
  | binary _ left right => left.Saturated ∧ right.Saturated
  | call function args => function.arity.admits args.length = true ∧ AllSaturated args

/-- Every function is called with as many arguments as it takes in all terms. -/
def AllSaturated : List Term → Prop
  | [] => True
  | t :: ts => t.Saturated ∧ AllSaturated ts

end

section Draws

variable {op : Operator} {left right : Term} {ts : List Term} {function : Builtin}

theorem draws_binary : (binary op left right).draws = left.draws + right.draws := by
  simp [draws, marks]

theorem draws_call (h : function ≠ .random) : (call function ts).draws = Mark.draws (allMarks ts) := by
  simp [draws, marks, h]

/-- A saturated call of `random` has no arguments. -/
theorem eq_nil_of_admits (h : Builtin.random.arity.admits ts.length = true) : ts = [] := by
  simpa [Builtin.arity, Arity.admits] using h

end Draws

end Term

namespace Derivation

open Token

/-! ## What is read -/

mutual

theorem saturated_of_term : {s : Stratum} → (d : Derivation s) → ∀ {t}, d.term? = some t → t.Saturated
  | _, lift _ inner, t, ht => by
    rw [term?] at ht
    exact inner.saturated_of_term ht
  | _, binary op _ left right, t, ht => by
    obtain ⟨tl, hl, tr, hr, rfl⟩ := term?_binary.mp ht
    exact ⟨left.saturated_of_term hl, right.saturated_of_term hr⟩
  | _, negate inner, t, ht => by
    obtain ⟨ti, hi, rfl⟩ := term?_negate.mp ht
    rw [Term.Saturated]
    exact inner.saturated_of_term hi
  | _, powerNegate base exponent, t, ht => by
    obtain ⟨tb, hb, te, he, rfl⟩ := term?_powerNegate.mp ht
    rw [Term.Saturated, Term.Saturated]
    exact ⟨base.saturated_of_term hb, exponent.saturated_of_term he⟩
  | _, number x, t, ht => by
    cases ht
    trivial
  | _, name word, t, ht => by
    cases ht
    unfold Term.ofName
    split <;> trivial
  | _, call word args, t, ht => by
    obtain ⟨function, -, ts, hts, hadmits, rfl⟩ := term?_call.mp ht
    exact ⟨hadmits, saturated_of_terms args hts⟩
  | _, bracket _ inner, t, ht => by
    rw [term?] at ht
    exact inner.saturated_of_term ht

theorem saturated_of_terms : (args : List (Derivation .sum)) → ∀ {ts}, terms? args = some ts → Term.AllSaturated ts
  | [], ts, hts => by
    cases hts
    trivial
  | first :: rest, ts, hts => by
    obtain ⟨t, ht, ts', hts', rfl⟩ := terms?_cons.mp hts
    exact ⟨first.saturated_of_term ht, saturated_of_terms rest hts'⟩

end

theorem eq_nil_of_terms {args : List (Derivation .sum)} (h : terms? args = some []) : args = [] := by
  cases args with
  | nil => rfl
  | cons first rest =>
    obtain ⟨t, -, ts, -, hts⟩ := terms?_cons.mp h
    cases hts

mutual

/-- The marks of the tokens of a derivation, in front of other tokens, are those of its term. -/
theorem marks_append : {s : Stratum} → (d : Derivation s) → ∀ {t}, d.term? = some t → ∀ {rest}, NotCalled rest →
    Token.marks (d.kinds ++ rest) = t.marks ++ Token.marks rest
  | _, lift _ inner, t, ht, rest, hrest => by
    rw [term?] at ht
    rw [kinds, inner.marks_append ht hrest]
  | _, binary op _ left right, t, ht, rest, hrest => by
    obtain ⟨tl, hl, tr, hr, rfl⟩ := term?_binary.mp ht
    rw [kinds, List.append_assoc, List.cons_append, left.marks_append hl (by simp), marks_cons_of_not_word (by simp),
      right.marks_append hr hrest, Term.marks, List.append_assoc]
  | _, negate inner, t, ht, rest, hrest => by
    obtain ⟨ti, hi, rfl⟩ := term?_negate.mp ht
    rw [kinds, List.cons_append, marks_cons_of_not_word (by simp), inner.marks_append hi hrest, Term.marks]
  | _, powerNegate base exponent, t, ht, rest, hrest => by
    obtain ⟨tb, hb, te, he, rfl⟩ := term?_powerNegate.mp ht
    rw [kinds, List.append_assoc, List.cons_append, List.cons_append, base.marks_append hb (by simp),
      marks_cons_of_not_word (by simp), marks_cons_of_not_word (by simp), exponent.marks_append he hrest, Term.marks,
      Term.marks, List.append_assoc]
  | _, number x, t, ht, rest, hrest => by
    cases ht
    rw [kinds, List.singleton_append, marks_cons_of_not_word (by simp), Term.marks, List.nil_append]
  | _, name word, t, ht, rest, hrest => by
    cases ht
    rw [kinds, List.singleton_append, marks_word_of_notCalled hrest, Term.ofName]
    cases constant? word <;> simp [Term.marks]
  | _, call word args, t, ht, rest, hrest => by
    obtain ⟨function, hfunction, ts, hts, -, rfl⟩ := term?_call.mp ht
    rw [kinds, List.cons_append, List.cons_append, marks_word_opening, argumentMarks_append args hts, hfunction,
      Term.marks, List.append_assoc]
    simp
  | _, bracket shape inner, t, ht, rest, hrest => by
    rw [term?] at ht
    rw [kinds, List.cons_append, List.append_assoc, List.singleton_append, marks_cons_of_not_word (by simp),
      inner.marks_append ht (by simp), marks_cons_of_not_word (by simp)]

theorem argumentMarks_append : (args : List (Derivation .sum)) → ∀ {ts}, terms? args = some ts →
    ∀ {rest}, Token.marks (argumentKinds args ++ rest) = Term.allMarks ts ++ Token.marks rest
  | [], ts, hts, rest => by
    cases hts
    rw [argumentKinds, List.singleton_append, marks_cons_of_not_word (by simp), Term.allMarks, List.nil_append]
  | [last], ts, hts, rest => by
    obtain ⟨t, ht, ts', hts', rfl⟩ := terms?_cons.mp hts
    cases hts'
    rw [argumentKinds, List.append_assoc, List.singleton_append, last.marks_append ht (by simp),
      marks_cons_of_not_word (by simp), Term.allMarks, Term.allMarks, List.append_nil]
  | first :: second :: others, ts, hts, rest => by
    obtain ⟨t, ht, ts', hts', rfl⟩ := terms?_cons.mp hts
    rw [argumentKinds_cons, List.append_assoc, List.cons_append, first.marks_append ht (by simp),
      marks_cons_of_not_word (by simp), argumentMarks_append (second :: others) hts', Term.allMarks, List.append_assoc]

end

/-- **The tokens of a formula have the marks of its term, in the same order.** -/
theorem marks_of_term {s : Stratum} (d : Derivation s) {t : Term} (ht : d.term? = some t) :
    Token.marks d.kinds = t.marks := by
  have h := d.marks_append ht notCalled_nil
  simpa using h

end Derivation
end ParetoSweep
