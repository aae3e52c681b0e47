import ParetoSweep.Number.Numeral
import Mathlib.Data.List.TakeWhile

/-!
# The longest numeral

What `Numeral.scan` splits off is spelled as numerals are (`Numeral.WellFormed`), and no longer numeral stands at the
beginning of the text (`length_le_scan`). Because a spelling belongs to one numeral only (`scan_text`), this determines
the scan: it does not change if the text is cut off somewhere behind the numeral (`scan_append_of_scan`), nor if a text
is put behind it that no numeral goes on with (`scan_append`).
-/

namespace ParetoSweep

/-- A power of ten has a letter, perhaps a sign, and at least one digit. -/
structure Exponent.WellFormed (e : Exponent) : Prop where
  letter : e.letter = 'e' ∨ e.letter = 'E'
  sign : ∀ c ∈ e.sign, c = '+' ∨ c = '-'
  digits : ∀ c ∈ e.digits, c.isDigit = true
  ne_nil : e.digits ≠ []

/-- The parts of a numeral are made of digits, and its power of ten is well-formed. -/
structure Numeral.WellFormed (n : Numeral) : Prop where
  whole : ∀ c ∈ n.whole, c.isDigit = true
  fraction : ∀ ds ∈ n.fraction, ∀ c ∈ ds, c.isDigit = true
  exponent : ∀ e ∈ n.exponent, e.WellFormed

namespace Numeral

variable {n n' : Numeral} {e : Exponent} {cs ds more : List Char} {c : Char}

/-! ## What is scanned is well-formed -/

theorem isDigit_of_mem_takeWhile (h : c ∈ cs.takeWhile Char.isDigit) : c.isDigit = true :=
  List.mem_takeWhile_imp h

theorem scanFraction_digits : ∀ ds ∈ (scanFraction cs).1, ∀ c ∈ ds, c.isDigit = true := by
  unfold scanFraction
  split
  · rintro _ ⟨⟩ c hc
    exact isDigit_of_mem_takeWhile hc
  · nofun

theorem scanSign_sign : ∀ c ∈ (scanSign cs).1, c = '+' ∨ c = '-' := by
  unfold scanSign
  split
  · nofun
  · split
    · rename_i hsign
      rintro _ ⟨⟩
      exact hsign
    · nofun

theorem scanExponent_wellFormed : ∀ e ∈ (scanExponent cs).1, e.WellFormed := by
  cases cs with
  | nil => nofun
  | cons c cs =>
    unfold scanExponent
    dsimp only
    split
    · rename_i h
      rintro _ ⟨⟩
      exact ⟨h.1, scanSign_sign, fun _ => isDigit_of_mem_takeWhile, h.2⟩
    · nofun

theorem wellFormed_scan (cs : List Char) : (scan cs).1.WellFormed :=
  ⟨fun _ => isDigit_of_mem_takeWhile, scanFraction_digits, scanExponent_wellFormed⟩

/-- A character that may stand in a numeral. -/
def IsPart (c : Char) : Prop := c.isDigit = true ∨ c ∈ ['.', 'e', 'E', '+', '-']

theorem isPart_of_mem_text (h : n.WellFormed) (hc : c ∈ n.text) : IsPart c := by
  obtain ⟨whole, fraction, exponent⟩ := n
  obtain ⟨hwhole, hfraction, hexponent⟩ := h
  rcases List.mem_append.mp hc with hc | hc
  · exact Or.inl (hwhole c hc)
  rcases List.mem_append.mp hc with hc | hc
  · cases fraction with
    | none => cases hc
    | some ds =>
      rcases List.mem_cons.mp hc with rfl | hc
      · exact Or.inr (by decide)
      · exact Or.inl (hfraction ds rfl c hc)
  · cases exponent with
    | none => cases hc
    | some e =>
      have he := hexponent e rfl
      rcases List.mem_cons.mp hc with rfl | hc
      · rcases he.letter with h | h <;> rw [h] <;> exact Or.inr (by decide)
      rcases List.mem_append.mp hc with hc | hc
      · rcases he.sign c (Option.mem_toList.mp hc) with rfl | rfl <;> exact Or.inr (by decide)
      · exact Or.inl (he.digits c hc)

/-! ## Scanning a numeral that is there -/

theorem dropWhile_append_digits (h : ∀ c ∈ ds, c.isDigit = true) :
    (ds ++ more).dropWhile Char.isDigit = more.dropWhile Char.isDigit :=
  List.dropWhile_append_of_pos h

/-- A power of ten is scanned with all digits that follow. -/
theorem scanExponent_text (h : e.WellFormed) (more : List Char) : scanExponent (e.text ++ more) =
    (some ⟨e.letter, e.sign, e.digits ++ more.takeWhile Char.isDigit⟩, more.dropWhile Char.isDigit) := by
  obtain ⟨letter, sign, digits⟩ := e
  obtain ⟨hletter, hsign, hdigits, hne⟩ := h
  have hscan : scanSign (sign.toList ++ digits ++ more) = (sign, digits ++ more) := by
    cases sign with
    | some c => exact if_pos (hsign c rfl)
    | none =>
      obtain ⟨d, tail, rfl⟩ := List.exists_cons_of_ne_nil hne
      refine if_neg ?_
      have hd := hdigits d List.mem_cons_self
      rintro (rfl | rfl) <;> cases hd
  have hsome : (digits ++ more).takeWhile Char.isDigit ≠ [] := by
    rw [List.takeWhile_append_of_pos hdigits]
    exact List.append_ne_nil_of_left_ne_nil hne _
  show scanExponent (letter :: (sign.toList ++ digits ++ more)) = _
  unfold scanExponent
  dsimp only
  rw [hscan, if_pos ⟨hletter, hsome⟩, List.takeWhile_append_of_pos hdigits, dropWhile_append_digits hdigits]

/-- A letter is neither a digit nor a point. -/
theorem scanFraction_text (h : e.WellFormed) (more : List Char) :
    scanFraction (e.text ++ more) = (none, e.text ++ more) := by
  obtain ⟨letter, sign, digits⟩ := e
  rcases h.letter with h | h <;> cases h <;> rfl

theorem dropWhile_text (h : e.WellFormed) (more : List Char) :
    (e.text ++ more).dropWhile Char.isDigit = e.text ++ more ∧ (e.text ++ more).takeWhile Char.isDigit = [] := by
  obtain ⟨letter, sign, digits⟩ := e
  rcases h.letter with h | h <;> cases h <;> exact ⟨rfl, rfl⟩

/-- What is left of a text, part by part. -/
theorem scan_snd (cs : List Char) :
    (scan cs).2 = (scanExponent (scanFraction (cs.dropWhile Char.isDigit)).2).2 := rfl

/-- Behind a numeral, a scan leaves no more than what stands there. -/
theorem length_scan_append_le (h : n.WellFormed) (more : List Char) :
    (scan (n.text ++ more)).2.length ≤ more.length := by
  obtain ⟨whole, fraction, exponent⟩ := n
  obtain ⟨hwhole, hfraction, hexponent⟩ := h
  have hdrop := (List.dropWhile_suffix (l := more) Char.isDigit).length_le
  rw [scan_snd, text, List.append_assoc, dropWhile_append_digits hwhole]
  cases fraction with
  | none =>
    cases exponent with
    | none => exact (length_scanExponent_le _).trans ((length_scanFraction_le _).trans hdrop)
    | some e =>
      have he := hexponent e rfl
      show (scanExponent (scanFraction ((e.text ++ more).dropWhile Char.isDigit)).2).2.length ≤ _
      rw [(dropWhile_text he more).1, scanFraction_text he, scanExponent_text he]
      exact hdrop
  | some ds =>
    have hds := hfraction ds rfl
    cases exponent with
    | none =>
      show (scanExponent (((ds ++ []) ++ more).dropWhile Char.isDigit)).2.length ≤ _
      rw [List.append_nil, dropWhile_append_digits hds]
      exact (length_scanExponent_le _).trans hdrop
    | some e =>
      have he := hexponent e rfl
      show (scanExponent (((ds ++ e.text) ++ more).dropWhile Char.isDigit)).2.length ≤ _
      rw [List.append_assoc, dropWhile_append_digits hds, (dropWhile_text he more).1, scanExponent_text he]
      exact hdrop

/-- **No longer numeral stands at the beginning of a text.** -/
theorem length_le_scan (h : n.WellFormed) (hstarts : n.text <+: cs) : n.text.length ≤ (scan cs).1.text.length := by
  obtain ⟨more, rfl⟩ := hstarts
  have hlength := congrArg List.length (text_scan (n.text ++ more))
  have hle := length_scan_append_le h more
  rw [List.length_append, List.length_append] at hlength
  omega

/-- A spelling is scanned as its numeral. -/
theorem scan_text (h : n.WellFormed) : scan n.text = (n, []) := by
  obtain ⟨whole, fraction, exponent⟩ := n
  obtain ⟨hwhole, hfraction, hexponent⟩ := h
  unfold scan text
  rw [List.takeWhile_append_of_pos hwhole, dropWhile_append_digits hwhole]
  cases fraction with
  | none =>
    cases exponent with
    | none => simp [scanFraction, scanExponent]
    | some e =>
      have he := hexponent e rfl
      have hscan := scanExponent_text he []
      have hfraction := scanFraction_text he []
      have hdrop := dropWhile_text he []
      simp only [List.append_nil] at hscan hfraction hdrop
      simp [hdrop.1, hdrop.2, hfraction, hscan]
  | some ds =>
    have hds := hfraction ds rfl
    cases exponent with
    | none => simp [scanFraction, scanExponent, List.takeWhile_eq_self_iff.mpr hds, List.dropWhile_eq_nil_iff.mpr hds]
    | some e =>
      have he := hexponent e rfl
      have hscan := scanExponent_text he []
      have hdrop := dropWhile_text he []
      simp only [List.append_nil] at hscan hdrop
      have htake : (ds ++ e.text).takeWhile Char.isDigit = ds := by
        rw [List.takeWhile_append_of_pos hds, hdrop.2, List.append_nil]
      have hrest : (ds ++ e.text).dropWhile Char.isDigit = e.text := by
        rw [dropWhile_append_digits hds, hdrop.1]
      simp [scanFraction, htake, hrest, hscan]

/-- A scan does not change if the text is cut off somewhere behind the numeral. -/
theorem scan_append_of_scan (h : scan cs = (n, ds ++ more)) : scan (n.text ++ ds) = (n, ds) := by
  have hn : n.WellFormed := by
    have hscan := wellFormed_scan cs
    rwa [h] at hscan
  have hcs : n.text ++ ds ++ more = cs := by
    have htext := text_scan cs
    rw [h] at htext
    rw [List.append_assoc]
    exact htext
  generalize hcut : scan (n.text ++ ds) = cut
  obtain ⟨n', rest⟩ := cut
  have hn' : n'.WellFormed := by
    have hscan := wellFormed_scan (n.text ++ ds)
    rwa [hcut] at hscan
  have htext : n'.text ++ rest = n.text ++ ds := by
    have htext := text_scan (n.text ++ ds)
    rwa [hcut] at htext
  -- Each of the two numerals stands at the beginning of the other one's text.
  have hle : n.text.length ≤ n'.text.length := by
    have hlength := length_le_scan hn (List.prefix_append n.text ds)
    rwa [hcut] at hlength
  have hge : n'.text.length ≤ n.text.length := by
    have hstarts : n'.text <+: cs := ⟨rest ++ more, by rw [← List.append_assoc, htext, hcs]⟩
    have hlength := length_le_scan hn' hstarts
    rwa [h] at hlength
  obtain ⟨hsame, rfl⟩ := List.append_inj htext (Nat.le_antisymm hge hle)
  have hscan := scan_text hn'
  rw [hsame, scan_text hn] at hscan
  cases hscan
  rfl

/-- Nor does it change if a text follows that no numeral goes on with. -/
theorem scan_append (h : ∀ c ∈ more.head?, ¬ IsPart c) (cs : List Char) :
    scan (cs ++ more) = ((scan cs).1, (scan cs).2 ++ more) := by
  obtain ⟨n, rest, hscan⟩ : ∃ n rest, scan (cs ++ more) = (n, rest) := ⟨_, _, rfl⟩
  have hn : n.WellFormed := by
    have hwellFormed := wellFormed_scan (cs ++ more)
    rwa [hscan] at hwellFormed
  have htext : n.text ++ rest = cs ++ more := by
    have htext := text_scan (cs ++ more)
    rwa [hscan] at htext
  -- The numeral ends within the first text, since it would have to go on with the second one.
  obtain ⟨ds, rfl, rfl⟩ : ∃ ds, cs = n.text ++ ds ∧ rest = ds ++ more := by
    rcases List.append_eq_append_iff.mp htext with ⟨ds, hcs, hrest⟩ | ⟨ds, hntext, hmore⟩
    · exact ⟨ds, hcs, hrest⟩
    · cases ds with
      | nil => exact ⟨[], by rw [hntext, List.append_nil, List.append_nil], hmore.symm⟩
      | cons c ds =>
        have hpart : IsPart c := isPart_of_mem_text hn (by simp [hntext])
        exact absurd hpart (h c (by rw [hmore]; rfl))
  rw [hscan, scan_append_of_scan hscan]

end Numeral
end ParetoSweep
