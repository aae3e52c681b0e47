import Mathlib.Data.List.Nodup
import ParetoSweep.Candidate.Scorer
import ParetoSweep.Proofs.Formula.Check
import ParetoSweep.Proofs.Formula.Lexeme

/-!
# Values by name

Formulas see the values of an assignment under the names of the variables. A name is scanned as one word, which is no
constant (`parse_variableName`), and two variables never have the same one (`variableName_injective`). So the bindings
of an assignment have as many names as values, every value is found under the name of its variable, and a map that
keeps what is written last under a name holds the same (`getElem?_ofList_of_nodup`).
-/

namespace ParetoSweep

open Token

/-! ## Names as formulas -/

section Names

theorem toList_variableName (i : Nat) : (variableName i).toList = 'x' :: Nat.toDigits 10 (i + 1) := by
  have hdigits : (toString (i + 1)).toList = Nat.toDigits 10 (i + 1) := by
    rw [Nat.toString_eq_ofList_toDigits, String.toList_ofList]
  rw [variableName, String.toList_append, hdigits]
  rfl

/-- Variables have different names. -/
theorem variableName_injective : Function.Injective variableName := by
  intro i j h
  have hlists := congrArg String.toList h
  rw [toList_variableName, toList_variableName, List.cons_inj_right] at hlists
  have hnumbers := congrArg (fun digits => Nat.ofDigitChars 10 digits 0) hlists
  rw [Nat.ofDigitChars_ten_toDigits, Nat.ofDigitChars_ten_toDigits] at hnumbers
  exact Nat.succ.inj hnumbers

theorem variableName?_eq_some_iff {i : Nat} {name : String} :
    variableName? i = some name ↔ i < countLimit ∧ variableName i = name := by
  simp [variableName?]

/-- A name goes on with digits. -/
theorem continuesWord_of_mem_toDigits {n : Nat} {c : Char} (h : c ∈ Nat.toDigits 10 n) : continuesWord c = true := by
  have hdigit := Nat.isDigit_of_mem_toDigits (by decide) (by decide) h
  simp [continuesWord, Char.isAlphanum, hdigit]

/-- No variable is called like a constant. -/
theorem constant?_variableName (i : Nat) : constant? (variableName i) = none := by
  have hne : ∀ word : String, word.toList.head? ≠ some 'x' → variableName i ≠ word := by
    rintro word hword rfl
    exact hword (by rw [toList_variableName, List.head?_cons])
  unfold constant?
  split
  case h_1 h => exact absurd h (hne _ (by decide))
  case h_2 h => exact absurd h (hne _ (by decide))
  case h_3 => rfl

theorem scan_variableName (i : Nat) : Token.scan (variableName i) = .ok [⟨.word (variableName i), 0⟩] := by
  have hlist := toList_variableName i
  have hbreaks : Breaks [] := fun _ h => nomatch h
  obtain ⟨htake, hdrop⟩ := takeWhile_word (fun _ => continuesWord_of_mem_toDigits (n := i + 1)) hbreaks
  rw [List.append_nil] at htake hdrop
  rw [Token.scan, hlist, scanFrom_word (by decide) (by decide), htake, hdrop, ← hlist, String.ofList_toList, scanFrom]
  rfl

/-- A word on its own is a constant or a variable. -/
theorem ofTokens_word (word : String) (position : Nat) :
    Term.ofTokens [⟨.word word, position⟩] = .ok (Term.ofName word) := by
  rw [ofTokens_of_derivation (d := Derivation.ofAtom (.name word)) rfl rfl]
  rfl

theorem parse_variableName (i : Nat) :
    Formula.parse (variableName i) = .ok ⟨variableName i, .named (variableName i)⟩ := by
  rw [Formula.parse, scan_variableName, ok_bind, ofTokens_word, ok_bind, Term.ofName, constant?_variableName]
  rfl

end Names

/-! ## Bindings with different names -/

section Bindings

variable {bindings : Bindings} {word : String} {x : Float} {s : Stream}

theorem lookup_of_mem (hnames : (bindings.map Prod.fst).Nodup) (h : (word, x) ∈ bindings) :
    bindings.lookup word = some x := by
  obtain ⟨before, after, rfl⟩ := List.append_of_mem h
  refine List.lookup_eq_some_iff.mpr ⟨before, after, rfl, fun pair hpair => ?_⟩
  rw [List.map_append, List.map_cons] at hnames
  rw [bne_iff_ne]
  rintro rfl
  exact (List.nodup_append.mp hnames).2.2 pair.1 (List.mem_map_of_mem hpair) pair.1 List.mem_cons_self rfl

/-- A map holds what is looked up in the bindings, whichever of two values of one name it would keep. -/
theorem getElem?_ofList_of_nodup (hnames : (bindings.map Prod.fst).Nodup) (word : String) :
    (Std.HashMap.ofList bindings)[word]? = bindings.lookup word := by
  have hpairs : bindings.Pairwise fun a b => (a.1 == b.1) = false :=
    (List.pairwise_map.mp hnames).imp fun h => beq_eq_false_iff_ne.mpr h
  cases hlookup : bindings.lookup word with
  | some x =>
    obtain ⟨before, after, rfl, -⟩ := List.lookup_eq_some_iff.mp hlookup
    exact Std.HashMap.getElem?_ofList_of_mem (beq_self_eq_true word) hpairs (by simp)
  | none =>
    refine Std.HashMap.getElem?_ofList_of_contains_eq_false ?_
    rw [List.contains_eq_mem, decide_eq_false_iff_not]
    rintro hword
    obtain ⟨pair, hpair, rfl⟩ := List.mem_map.mp hword
    exact bne_iff_ne.mp (List.lookup_eq_none_iff.mp hlookup pair hpair) rfl

theorem run_named_of_some (h : bindings.lookup word = some x) :
    (Term.eval bindings (.named word)).run s = (.ok x, s) := by
  rw [Term.eval, h]
  rfl

theorem run_named_of_none (h : bindings.lookup word = none) :
    (Term.eval bindings (.named word)).run s = (.error (.unknownName word), s) := by
  rw [Term.eval, h]
  rfl

end Bindings

/-! ## The bindings of an assignment -/

section Assignments

variable {p : Problem} {a : Assignment} {i : Nat}

theorem nodup_names (p : Problem) : p.names.Nodup := List.nodup_range.map variableName_injective

theorem length_bindings (p : Problem) (a : Assignment) :
    ((Scorer.ofProblem p).bindings a).length = min p.dimension a.length := by
  simp [Scorer.bindings, Scorer.ofProblem, Problem.names, Assignment.decoded]

/-- As many variables have values as there are both variables and values. -/
theorem names_bindings (p : Problem) (a : Assignment) : ((Scorer.ofProblem p).bindings a).map Prod.fst =
    (List.range (min p.dimension a.length)).map variableName := by
  show (List.zip p.names a.decoded).map Prod.fst = _
  rw [List.zip_eq_zip_take_min, List.map_fst_zip (by simp)]
  simp [Problem.names, Assignment.decoded, ← List.map_take, List.take_range]

theorem nodup_names_bindings (p : Problem) (a : Assignment) :
    (((Scorer.ofProblem p).bindings a).map Prod.fst).Nodup := by
  rw [names_bindings]
  exact List.nodup_range.map variableName_injective

theorem lookup_bindings_of_lt {v : Value} (hi : i < p.dimension) (hv : a[i]? = some v) :
    ((Scorer.ofProblem p).bindings a).lookup (variableName i) = some v.decode := by
  refine lookup_of_mem (nodup_names_bindings p a) (List.mem_of_getElem? (i := i) ?_)
  refine List.getElem?_zip_eq_some.mpr ⟨?_, ?_⟩
  · simp [Scorer.ofProblem, Problem.names, hi]
  · simp [Assignment.decoded, hv]

theorem lookup_bindings_of_le (hi : min p.dimension a.length ≤ i) :
    ((Scorer.ofProblem p).bindings a).lookup (variableName i) = none := by
  refine List.lookup_eq_none_iff.mpr fun pair hpair => bne_iff_ne.mpr fun hname => ?_
  have hmem := List.mem_map_of_mem (f := Prod.fst) hpair
  rw [names_bindings, ← hname] at hmem
  obtain ⟨j, hj, hij⟩ := List.mem_map.mp hmem
  have hlt := List.mem_range.mp hj
  rw [variableName_injective hij] at hlt
  exact absurd hlt (Nat.not_lt.mpr hi)

/-- **A name stands for the value of its variable and for nothing else.** It is one word that is read as a variable, no
other variable has it, and evaluating it gives the value at the place of the variable if there are so many variables
and values, and else the name is unknown. The bindings are one for each of these, and so is a map made of them. -/
theorem evaluate_variableName (p : Problem) (a : Assignment) (hi : i < countLimit) : ∃ name,
    variableName? i = some name ∧ Token.scan name = .ok [⟨.word name, 0⟩] ∧
      Formula.parse name = .ok ⟨name, .named name⟩ ∧ (∀ j, variableName? j = some name → j = i) ∧
      (∀ v s, i < p.dimension → a[i]? = some v →
        (Formula.evaluate name ((Scorer.ofProblem p).bindings a)).run s = (.ok v.decode, s)) ∧
      (∀ s, min p.dimension a.length ≤ i →
        (Formula.evaluate name ((Scorer.ofProblem p).bindings a)).run s = (.error (.unknownName name), s)) ∧
      p.names.Nodup ∧
      (Std.HashMap.ofList ((Scorer.ofProblem p).bindings a)).size = min p.dimension a.length ∧
      ∀ word, (Std.HashMap.ofList ((Scorer.ofProblem p).bindings a))[word]? =
        ((Scorer.ofProblem p).bindings a).lookup word := by
  have hnames := nodup_names_bindings p a
  refine ⟨variableName i, variableName?_eq_some_iff.mpr ⟨hi, rfl⟩, scan_variableName i, parse_variableName i, ?_, ?_,
    ?_, nodup_names p, ?_, getElem?_ofList_of_nodup hnames⟩
  · intro j hj
    exact variableName_injective (variableName?_eq_some_iff.mp hj).2
  · intro v s hlt hv
    rw [evaluate_of_parse (parse_variableName i)]
    exact run_named_of_some (lookup_bindings_of_lt hlt hv)
  · intro s hle
    rw [evaluate_of_parse (parse_variableName i)]
    exact run_named_of_none (lookup_bindings_of_le hle)
  · rw [Std.HashMap.size_ofList, length_bindings]
    exact (List.pairwise_map.mp hnames).imp fun h => beq_eq_false_iff_ne.mpr h

/-- Twelve variables, of which the first ten have values. -/
theorem evaluate_variableName_tenOfTwelve :
    let p : Problem := ⟨"twelve", List.replicate 12 .binary, [], []⟩
    let a : Assignment := List.replicate 9 (.binary false) ++ [.integer (-5)]
    9 < countLimit ∧ 10 < countLimit ∧
      (Formula.evaluate "x10" ((Scorer.ofProblem p).bindings a)).run (.ofSeed 3) = (.ok (-5.0), .ofSeed 3) ∧
      (Formula.evaluate "x11" ((Scorer.ofProblem p).bindings a)).run (.ofSeed 3) =
        (.error (.unknownName "x11"), .ofSeed 3) := by
  intro p a
  refine ⟨by decide, by decide, ?_, ?_⟩
  · obtain ⟨name, hname, -, -, -, hvalue, -⟩ := evaluate_variableName p a (show 9 < countLimit by decide)
    obtain rfl : "x10" = name := Option.some.inj ((by decide +kernel : variableName? 9 = some "x10").symm.trans hname)
    have hdecode : (Value.integer (-5)).decode = -5.0 := by decide +kernel
    rw [← hdecode]
    exact hvalue (.integer (-5)) (.ofSeed 3) (by decide) rfl
  · obtain ⟨name, hname, -, -, -, -, hunknown, -⟩ := evaluate_variableName p a (show 10 < countLimit by decide)
    obtain rfl : "x11" = name := Option.some.inj ((by decide +kernel : variableName? 10 = some "x11").symm.trans hname)
    exact hunknown (.ofSeed 3) (by decide)

end Assignments

end ParetoSweep
