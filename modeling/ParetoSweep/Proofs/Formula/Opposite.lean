import ParetoSweep.Proofs.Formula.Height
import ParetoSweep.Proofs.Formula.Lexeme

/-!
# Opposite formulas

The opposite of a formula is written with a minus sign in front of the formula in brackets. The formula is scanned there
as it is on its own, only at other places, because none of its lexemes goes on with the closing bracket
(`spells_append`). So the opposite of a formula is read as the negation of its term, unless it is too deep, as it takes
two units of depth more (`parse_opposite_of_derivation`).
-/

namespace ParetoSweep

/-! ## Texts in front of other texts -/

namespace Token

/-- No word and no numeral goes on into a text. -/
def Fence (cs : List Char) : Prop := ∀ c ∈ cs.head?, continuesWord c = false ∧ ¬ Numeral.IsPart c

section Spells

variable {cs rest : List Char} {ks : List Kind} {kind : Kind} {tokens : List Token}

/-- A character that is a token, in front of a text. -/
theorem Spells.sign {c : Char} (h : Spells rest ks) (hc : Kind.ofSign? c = some kind) :
    Spells (c :: rest) (kind :: ks) :=
  h.prepend 1 fun _ => scanFrom_sign hc

/-- In front of a text that none of its lexemes goes on with, a text is scanned as on its own. -/
theorem spells_append (hfence : Fence rest) (hrest : Spells rest ks) {offset : Nat} :
    ∀ tokens, scanFrom offset cs = .ok tokens → Spells (cs ++ rest) (tokens.map Token.kind ++ ks) := by
  induction offset, cs using scanFrom.induct with
  | case1 offset =>
    intro tokens h
    rw [scanFrom] at h
    cases h
    exact hrest
  | case2 offset c cs hblank ih =>
    intro tokens h offset'
    rw [scanFrom_blank hblank] at h
    rw [List.cons_append, scanFrom_blank hblank]
    exact ih _ h (offset' + 1)
  | case3 offset c cs hblank hword tail ih =>
    intro tokens h
    rw [scanFrom_word hblank hword, List.length_cons, ← Nat.add_assoc, Nat.add_right_comm] at h
    obtain ⟨tokens', hscan, hpure⟩ := bind_eq_ok.mp h
    cases hpure
    have hbreaks : Breaks (cs.dropWhile continuesWord ++ rest) := by
      have hhead := List.head?_dropWhile_not continuesWord cs
      intro d hd
      cases hdrop : cs.dropWhile continuesWord with
      | nil =>
        rw [hdrop] at hd
        exact (hfence d hd).1
      | cons d' ds =>
        rw [hdrop] at hd hhead
        cases hd
        exact hhead
    obtain ⟨htake, hdrop⟩ := takeWhile_word (fun d => List.mem_takeWhile_imp) hbreaks
    rw [← List.append_assoc, List.takeWhile_append_dropWhile] at htake hdrop
    refine (ih _ hscan).prepend (c :: cs.takeWhile continuesWord).length fun offset' => ?_
    rw [List.cons_append, scanFrom_word hblank hword, htake, hdrop]
  | case4 offset c cs hblank hword hnumeral numeral hvalue =>
    intro tokens h
    rw [scanFrom_number hblank hword hnumeral, hvalue] at h
    cases h
  | case5 offset c cs hblank hword hnumeral numeral value hvalue ih =>
    intro tokens h
    rw [scanFrom_number hblank hword hnumeral, hvalue] at h
    obtain ⟨tokens', hscan, hpure⟩ := bind_eq_ok.mp h
    cases hpure
    have hnumeral' := Numeral.scan_append (fun d hd => (hfence d hd).2) (c :: cs)
    rw [List.cons_append] at hnumeral'
    refine (ih _ hscan).prepend (Numeral.scan (c :: cs)).1.text.length fun offset' => ?_
    rw [List.cons_append, scanFrom_number hblank hword hnumeral, hnumeral', hvalue]
  | case6 offset c cs hblank hword hnumeral hsign =>
    intro tokens h
    rw [scanFrom_stray hblank hword hnumeral hsign] at h
    cases h
  | case7 offset c cs hblank hword hnumeral kind hsign ih =>
    intro tokens h
    rw [scanFrom_sign hsign] at h
    obtain ⟨tokens', hscan, hpure⟩ := bind_eq_ok.mp h
    cases hpure
    exact (ih _ hscan).sign hsign

end Spells

end Token

/-! ## A minus sign and brackets -/

namespace Formula

/-- How the opposite of a formula is written. -/
def opposite (source : String) : String := "-(" ++ source ++ ")"

end Formula

namespace Derivation

/-- A minus sign in front of a sum in brackets. -/
def opposite (d : Derivation .sum) : Derivation .sum :=
  .lift (by decide) (.lift (by decide) (.negate (.lift (by decide) (.lift (by decide) (.bracket .round d)))))

variable {d : Derivation .sum} {t : Term}

theorem kinds_opposite (d : Derivation .sum) : d.opposite.kinds =
    .operator .subtract :: .opening .round :: (d.kinds ++ [.closing .round]) := by
  simp [opposite, kinds]

theorem need_opposite (d : Derivation .sum) : d.opposite.need = d.need + 2 := by
  simp [opposite, need]

theorem term?_opposite (h : d.term? = some t) : d.opposite.term? = some (.negate t) := by
  simp [opposite, term?, h]

end Derivation

section Opposite

variable {source : String} {tokens : List Token} {formula : Formula}

theorem scan_opposite (h : Token.scan source = .ok tokens) :
    ∃ tokens', Token.scan (Formula.opposite source) = .ok tokens' ∧ tokens'.map Token.kind =
      .operator .subtract :: .opening .round :: (tokens.map Token.kind ++ [.closing .round]) := by
  have hfence : Token.Fence [')'] := by
    rintro _ ⟨⟩
    exact ⟨by decide, by unfold Numeral.IsPart; decide⟩
  have hclosing : Token.Spells [')'] [.closing .round] := Token.spells_nil.sign rfl
  have hinner := Token.spells_append hfence hclosing tokens h
  have hopposite : Token.Spells ('-' :: '(' :: (source.toList ++ [')'])) _ := (hinner.sign rfl).sign rfl
  obtain ⟨tokens', hscan, hkinds⟩ := hopposite 0
  refine ⟨tokens', ?_, hkinds⟩
  rw [Token.scan, Formula.opposite, String.toList_append, String.toList_append]
  exact hscan

/-- The opposite of a formula is the negation of its term, and takes two units of depth more. -/
theorem parse_opposite_of_derivation {d : Derivation .sum} {t : Term} (hscan : Token.scan source = .ok tokens)
    (hkinds : d.kinds = tokens.map Token.kind) (hterm : d.term? = some t) :
    Formula.parse (Formula.opposite source) =
      if d.need + 2 ≤ depthLimit then .ok ⟨Formula.opposite source, .negate t⟩ else .error .tooDeep := by
  obtain ⟨tokens', hscan', hkinds'⟩ := scan_opposite hscan
  have hderived : d.opposite.kinds = tokens'.map Token.kind := by rw [d.kinds_opposite, hkinds, hkinds']
  rw [parse_of_derivation hscan' hderived (Derivation.term?_opposite hterm), d.need_opposite]

/-- **The opposite of a formula is read as the negation of its term**, unless it is too deep. -/
theorem parse_opposite (h : Formula.parse source = .ok formula) :
    Formula.parse (Formula.opposite source) = .ok ⟨Formula.opposite source, .negate formula.term⟩ ∨
      Formula.parse (Formula.opposite source) = .error .tooDeep := by
  obtain ⟨tokens, hscan, d, hkinds, hterm, -⟩ := exists_derivation h
  rw [parse_opposite_of_derivation hscan hkinds hterm]
  split
  · exact Or.inl rfl
  · exact Or.inr rfl

end Opposite

end ParetoSweep
