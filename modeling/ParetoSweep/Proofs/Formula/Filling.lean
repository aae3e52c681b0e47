import ParetoSweep.Proofs.Formula.Marks

/-!
# Numbers in place of draws

Calls of `random` may be replaced by numbers in the tokens of a formula (`Token.fill`), the first call by the first
number and so on until there are no more numbers or calls, and in a term in the same manner (`Term.fill`). What the
grammar derives from the tokens with numbers in them is the term with the same numbers in it, and it takes the same
depth (`exists_filled`). So the call that a number stands for is the same one in the text and in the term.
-/

namespace ParetoSweep

namespace Token

/-- The tokens with their first calls of `random` replaced by the numbers. -/
def fill : List Float → List Kind → List Kind
  | [], ks => ks
  | _, [] => []
  | x :: xs, k :: ks =>
    if k.marks ks = [.draw] then .number x :: fill xs (ks.drop 2) else k :: fill (x :: xs) ks
termination_by _ ks => ks.length

section Fill

variable {k : Kind} {ks : List Kind} {word : String} {x : Float} {xs : List Float}

@[simp] theorem fill_nil_left (ks : List Kind) : fill [] ks = ks := by rw [fill]

@[simp] theorem fill_nil_right (xs : List Float) : fill xs [] = [] := by cases xs <;> simp [fill]

/-- A token that is no call of `random` stays. -/
theorem fill_cons (h : k.marks ks ≠ [.draw]) : fill xs (k :: ks) = k :: fill xs ks := by
  cases xs with
  | nil => simp
  | cons x xs => rw [fill, if_neg h]

theorem fill_cons_of_not_word (h : ∀ word, k ≠ .word word) : fill xs (k :: ks) = k :: fill xs ks := by
  refine fill_cons ?_
  cases k with
  | word word => exact absurd rfl (h word)
  | _ => simp [Kind.marks]

theorem fill_word_of_notCalled (h : NotCalled ks) : fill xs (.word word :: ks) = .word word :: fill xs ks := by
  refine fill_cons ?_
  rw [Kind.marks, if_neg h]
  split <;> simp

theorem fill_draw (h : Builtin.ofName? word = some .random) :
    fill (x :: xs) (.word word :: .opening .round :: .closing .round :: ks) = .number x :: fill xs ks := by
  rw [fill, if_pos (by simp [Kind.marks, h])]
  rfl

theorem fill_word_opening (h : Builtin.ofName? word ≠ some .random) :
    fill xs (.word word :: .opening .round :: ks) = .word word :: .opening .round :: fill xs ks := by
  rw [fill_cons (by simp [Kind.marks, h]), fill_cons_of_not_word (by simp)]

end Fill

end Token

namespace Term

mutual

/-- A term with its first calls of `random` replaced by the numbers. -/
def fill : Term → List Float → Term
  | number value, _ => number value
  | named word, _ => named word
  | negate inner, xs => negate (inner.fill xs)
  | binary op left right, xs => binary op (left.fill xs) (right.fill (xs.drop left.draws))
  | call function args, xs =>
    if function = .random then (match xs with | x :: _ => number x | [] => call function args)
    else call function (fillAll args xs)

/-- Terms with their first calls of `random` replaced by the numbers. -/
def fillAll : List Term → List Float → List Term
  | [], _ => []
  | t :: ts, xs => t.fill xs :: fillAll ts (xs.drop t.draws)

end

section Fill

variable {ts : List Term} {function : Builtin} {xs : List Float}

theorem fill_call (h : function ≠ .random) : (call function ts).fill xs = call function (fillAll ts xs) := by
  simp [fill, h]

theorem length_fillAll : ∀ (ts : List Term) (xs : List Float), (fillAll ts xs).length = ts.length
  | [], _ => rfl
  | t :: ts, xs => by rw [fillAll, List.length_cons, length_fillAll ts, List.length_cons]

end Fill

end Term

namespace Derivation

open Token

/-! ## Derivations with numbers in them -/

/-- A derivation whose tokens and whose term are those of another one with numbers in place of draws. It is as deep,
so that it is read wherever the other one is. -/
structure Filled {s : Stratum} (d : Derivation s) (t : Term) (xs : List Float) (d' : Derivation s) : Prop where
  kinds : ∀ rest, NotCalled rest → Token.fill xs (d.kinds ++ rest) = d'.kinds ++ Token.fill (xs.drop t.draws) rest
  term : d'.term? = some (t.fill xs)
  need : d'.need = d.need
  spine : d'.spine = d.spine

/-- Arguments whose tokens and whose terms are those of other ones with numbers in place of draws. -/
structure FilledAll (args : List (Derivation .sum)) (ts : List Term) (xs : List Float)
    (args' : List (Derivation .sum)) : Prop where
  kinds : ∀ rest, Token.fill xs (argumentKinds args ++ rest) =
    argumentKinds args' ++ Token.fill (xs.drop (Mark.draws (Term.allMarks ts))) rest
  terms : terms? args' = some (Term.fillAll ts xs)
  need : argumentNeed args' = argumentNeed args
  length : args'.length = args.length

section Rules

variable {s : Stratum} {xs : List Float}

theorem filled_lift {inner inner' : Derivation s.next} {t : Term} (h : s ≠ .atom) (hinner : Filled inner t xs inner') :
    Filled (lift h inner) t xs (lift h inner') where
  kinds := by simpa only [Derivation.kinds] using hinner.kinds
  term := by rw [term?, hinner.term]
  need := by rw [Derivation.need, hinner.need, Derivation.need]
  spine := by rw [Derivation.spine, hinner.spine, Derivation.spine]

theorem filled_binary {op : Operator} {left left' : Derivation s} {right right' : Derivation s.next} {tl tr : Term}
    (h : op.rank = s.rank) (hleft : Filled left tl xs left') (hright : Filled right tr (xs.drop tl.draws) right') :
    Filled (binary op h left right) (.binary op tl tr) xs (binary op h left' right') where
  kinds := by
    intro rest hrest
    rw [Derivation.kinds, List.append_assoc, List.cons_append, hleft.kinds _ (by simp), fill_cons_of_not_word (by simp),
      hright.kinds _ hrest, List.drop_drop, ← Term.draws_binary, Derivation.kinds, List.append_assoc, List.cons_append]
  term := by
    rw [Term.fill]
    exact term?_binary.mpr ⟨_, hleft.term, _, hright.term, rfl⟩
  need := by simp only [Derivation.need, hleft.need, hleft.spine, hright.need]
  spine := by simp only [Derivation.spine, hleft.spine]

theorem filled_negate {inner inner' : Derivation .signed} {t : Term} (hinner : Filled inner t xs inner') :
    Filled (negate inner) (.negate t) xs (negate inner') where
  kinds := by
    intro rest hrest
    rw [Derivation.kinds, List.cons_append, fill_cons_of_not_word (by simp), hinner.kinds _ hrest, Derivation.kinds,
      List.cons_append]
    rfl
  term := by
    rw [Term.fill]
    exact term?_negate.mpr ⟨_, hinner.term, rfl⟩
  need := by simp only [Derivation.need, hinner.need]
  spine := by simp only [Derivation.spine]

theorem filled_powerNegate {base base' : Derivation .power} {exponent exponent' : Derivation .signed} {tb te : Term}
    (hbase : Filled base tb xs base') (hexponent : Filled exponent te (xs.drop tb.draws) exponent') :
    Filled (powerNegate base exponent) (.binary .power tb (.negate te)) xs (powerNegate base' exponent') where
  kinds := by
    intro rest hrest
    have hdraws : (Term.binary .power tb (.negate te)).draws = tb.draws + te.draws := Term.draws_binary
    rw [Derivation.kinds, List.append_assoc, List.cons_append, List.cons_append, hbase.kinds _ (by simp),
      fill_cons_of_not_word (by simp), fill_cons_of_not_word (by simp), hexponent.kinds _ hrest, List.drop_drop, hdraws,
      Derivation.kinds, List.append_assoc, List.cons_append, List.cons_append]
  term := by
    rw [Term.fill, Term.fill]
    exact term?_powerNegate.mpr ⟨_, hbase.term, _, hexponent.term, rfl⟩
  need := by simp only [Derivation.need, hbase.need, hbase.spine, hexponent.need]
  spine := by simp only [Derivation.spine, hbase.spine]

theorem filled_number (x : Float) : Filled (number x) (.number x) xs (number x) where
  kinds := by
    intro rest _
    rw [Derivation.kinds, List.singleton_append, fill_cons_of_not_word (by simp)]
    rfl
  term := by rw [Term.fill, term?]
  need := rfl
  spine := rfl

theorem filled_name (word : String) : Filled (name word) (Term.ofName word) xs (name word) where
  kinds := by
    intro rest hrest
    have hdraws : (Term.ofName word).draws = 0 := by
      rw [Term.ofName]
      cases constant? word <;> rfl
    rw [Derivation.kinds, List.singleton_append, fill_word_of_notCalled hrest, hdraws]
    rfl
  term := by
    rw [term?, Term.ofName]
    cases constant? word <;> rw [Term.fill]
  need := rfl
  spine := rfl

theorem filled_call {word : String} {function : Builtin} {args args' : List (Derivation .sum)} {ts : List Term}
    (hfunction : Builtin.ofName? word = some function) (hadmits : function.arity.admits ts.length = true)
    (hrandom : function ≠ .random) (hargs : FilledAll args ts xs args') :
    Filled (call word args) (.call function ts) xs (call word args') where
  kinds := by
    intro rest _
    have hword : Builtin.ofName? word ≠ some .random := by simpa [hfunction] using hrandom
    rw [Derivation.kinds, List.cons_append, List.cons_append, fill_word_opening hword, hargs.kinds,
      Term.draws_call hrandom, Derivation.kinds, List.cons_append, List.cons_append]
  term := by
    rw [Term.fill_call hrandom]
    exact term?_call.mpr ⟨function, hfunction, _, hargs.terms, by rwa [Term.length_fillAll], rfl⟩
  need := by simp only [Derivation.need, hargs.need]
  spine := by simp only [Derivation.spine]

/-- A call of `random` gives way to the first number, if there is one. -/
theorem filled_draw {word : String} (hrandom : Builtin.ofName? word = some .random) :
    ∃ d, Filled (call word []) (.call .random []) xs d := by
  cases xs with
  | nil =>
    refine ⟨call word [], by simp, ?_, rfl, rfl⟩
    exact term?_call.mpr ⟨.random, hrandom, [], by rw [terms?], rfl, by rw [Term.fill, if_pos rfl]⟩
  | cons x xs =>
    refine ⟨number x, ?_, by rw [Term.fill, if_pos rfl, term?], ?_, rfl⟩
    · intro rest _
      simp only [Derivation.kinds, argumentKinds, List.cons_append, List.nil_append]
      exact fill_draw hrandom
    · rw [Derivation.need, Derivation.need, argumentNeed]

theorem filled_bracket {inner inner' : Derivation .sum} {t : Term} (shape : Bracket)
    (hinner : Filled inner t xs inner') : Filled (bracket shape inner) t xs (bracket shape inner') where
  kinds := by
    intro rest _
    rw [Derivation.kinds, List.cons_append, List.append_assoc, List.singleton_append, fill_cons_of_not_word (by simp),
      hinner.kinds _ (by simp), fill_cons_of_not_word (by simp), Derivation.kinds, List.cons_append, List.append_assoc,
      List.singleton_append]
  term := by rw [term?, hinner.term]
  need := by simp only [Derivation.need, hinner.need]
  spine := by simp only [Derivation.spine]

theorem filledAll_nil : FilledAll [] [] xs [] where
  kinds := by
    intro rest
    rw [argumentKinds, List.singleton_append, fill_cons_of_not_word (by simp)]
    rfl
  terms := by rw [terms?, Term.fillAll]
  need := rfl
  length := rfl

theorem filledAll_singleton {d d' : Derivation .sum} {t : Term} (h : Filled d t xs d') : FilledAll [d] [t] xs [d'] where
  kinds := by
    intro rest
    have hdraws : Mark.draws (Term.allMarks [t]) = t.draws := by simp [Term.allMarks, Term.draws]
    rw [argumentKinds, List.append_assoc, List.singleton_append, h.kinds _ (by simp), fill_cons_of_not_word (by simp),
      hdraws, argumentKinds, List.append_assoc, List.singleton_append]
  terms := terms?_cons.mpr ⟨_, h.term, [], by rw [terms?], by rw [Term.fillAll, Term.fillAll]⟩
  need := by simp only [argumentNeed, h.need]
  length := rfl

theorem filledAll_cons {d d' second : Derivation .sum} {others args' : List (Derivation .sum)} {t : Term}
    {ts : List Term} (h : Filled d t xs d') (hs : FilledAll (second :: others) ts (xs.drop t.draws) args') :
    FilledAll (d :: second :: others) (t :: ts) xs (d' :: args') where
  kinds := by
    intro rest
    obtain ⟨second', others', rfl⟩ := List.exists_cons_of_length_eq_add_one hs.length
    have hdraws : Mark.draws (Term.allMarks (t :: ts)) = t.draws + Mark.draws (Term.allMarks ts) := by
      simp [Term.allMarks, Term.draws]
    rw [argumentKinds_cons, List.append_assoc, List.cons_append, h.kinds _ (by simp), fill_cons_of_not_word (by simp),
      hs.kinds, List.drop_drop, hdraws, argumentKinds_cons, List.append_assoc, List.cons_append]
  terms := terms?_cons.mpr ⟨_, h.term, _, hs.terms, by rw [Term.fillAll]⟩
  need := by rw [argumentNeed, h.need, hs.need, ← argumentNeed]
  length := congrArg (· + 1) hs.length

end Rules

mutual

/-- **Numbers in place of draws make a derivation again**, whatever numbers they are and however many. -/
theorem exists_filled : {s : Stratum} → (d : Derivation s) → ∀ {t}, d.term? = some t → ∀ xs, ∃ d', Filled d t xs d'
  | _, lift h inner, t, ht, xs => by
    rw [term?] at ht
    obtain ⟨inner', hinner⟩ := inner.exists_filled ht xs
    exact ⟨_, filled_lift h hinner⟩
  | _, binary op h left right, t, ht, xs => by
    obtain ⟨tl, hl, tr, hr, rfl⟩ := term?_binary.mp ht
    obtain ⟨left', hleft⟩ := left.exists_filled hl xs
    obtain ⟨right', hright⟩ := right.exists_filled hr (xs.drop tl.draws)
    exact ⟨_, filled_binary h hleft hright⟩
  | _, negate inner, t, ht, xs => by
    obtain ⟨ti, hi, rfl⟩ := term?_negate.mp ht
    obtain ⟨inner', hinner⟩ := inner.exists_filled hi xs
    exact ⟨_, filled_negate hinner⟩
  | _, powerNegate base exponent, t, ht, xs => by
    obtain ⟨tb, hb, te, he, rfl⟩ := term?_powerNegate.mp ht
    obtain ⟨base', hbase⟩ := base.exists_filled hb xs
    obtain ⟨exponent', hexponent⟩ := exponent.exists_filled he (xs.drop tb.draws)
    exact ⟨_, filled_powerNegate hbase hexponent⟩
  | _, number x, t, ht, xs => by
    cases ht
    exact ⟨_, filled_number x⟩
  | _, name word, t, ht, xs => by
    cases ht
    exact ⟨_, filled_name word⟩
  | _, call word args, t, ht, xs => by
    obtain ⟨function, hfunction, ts, hts, hadmits, rfl⟩ := term?_call.mp ht
    by_cases hrandom : function = .random
    · subst hrandom
      obtain rfl := Term.eq_nil_of_admits hadmits
      obtain rfl := eq_nil_of_terms hts
      exact filled_draw hfunction
    · obtain ⟨args', hargs⟩ := exists_filledAll args hts xs
      exact ⟨_, filled_call hfunction hadmits hrandom hargs⟩
  | _, bracket shape inner, t, ht, xs => by
    rw [term?] at ht
    obtain ⟨inner', hinner⟩ := inner.exists_filled ht xs
    exact ⟨_, filled_bracket shape hinner⟩

theorem exists_filledAll : (args : List (Derivation .sum)) → ∀ {ts}, terms? args = some ts →
    ∀ xs, ∃ args', FilledAll args ts xs args'
  | [], ts, hts, xs => by
    cases hts
    exact ⟨_, filledAll_nil⟩
  | [last], ts, hts, xs => by
    obtain ⟨t, ht, ts', hts', rfl⟩ := terms?_cons.mp hts
    cases hts'
    obtain ⟨last', hlast⟩ := last.exists_filled ht xs
    exact ⟨_, filledAll_singleton hlast⟩
  | first :: second :: others, ts, hts, xs => by
    obtain ⟨t, ht, ts', hts', rfl⟩ := terms?_cons.mp hts
    obtain ⟨first', hfirst⟩ := first.exists_filled ht xs
    obtain ⟨args', hargs⟩ := exists_filledAll (second :: others) hts' (xs.drop t.draws)
    exact ⟨_, filledAll_cons hfirst hargs⟩

end

end Derivation
end ParetoSweep
