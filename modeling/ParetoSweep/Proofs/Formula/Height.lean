import Mathlib.Order.Bounds.Defs
import ParetoSweep.Formula.Basic
import ParetoSweep.Proofs.Formula.Soundness
import ParetoSweep.Proofs.Formula.Text

/-!
# How tall terms get

The depth limit bounds the depth of reading, and that is not the height of what is read: the depth that a first operand
took is free again when its operators come, and each of them adds a level on top of it. With room for some depth, terms
get at most as tall as `tallest` of it (`levels_le_tallest`), which is about half of its square, and some get that tall
(`levels_tower`). Formulas taller than the depth limit are therefore accepted (`height_parse`), up to a height of
130817 (`isGreatest_height`).
-/

namespace ParetoSweep

/-! ## Heights -/

namespace Term

mutual

/-- The number of levels of a term. -/
def height : Term → Nat
  | number _ => 1
  | named _ => 1
  | negate inner => inner.height + 1
  | binary _ left right => max left.height right.height + 1
  | call _ args => heights args + 1

/-- The largest number of levels of some terms. -/
def heights : List Term → Nat
  | [] => 0
  | t :: ts => max t.height (heights ts)

end

theorem height_ofName (word : String) : (ofName word).height = 1 := by
  unfold ofName
  split <;> rw [height]

end Term

namespace Derivation

mutual

/-- The number of levels of the term of a derivation. -/
def levels : {s : Stratum} → Derivation s → Nat
  | _, lift _ inner => inner.levels
  | _, binary _ _ left right => max left.levels right.levels + 1
  | _, negate inner => inner.levels + 1
  | _, powerNegate base exponent => max base.levels (exponent.levels + 1) + 1
  | _, number _ => 1
  | _, name _ => 1
  | _, call _ args => argumentLevels args + 1
  | _, bracket _ inner => inner.levels

/-- The largest number of levels of some arguments. -/
def argumentLevels : List (Derivation .sum) → Nat
  | [] => 0
  | first :: rest => max first.levels (argumentLevels rest)

end

mutual

theorem height_of_term : {s : Stratum} → (d : Derivation s) → ∀ {t}, d.term? = some t → t.height = d.levels
  | _, lift _ inner, t, ht => by
    rw [term?] at ht
    rw [levels]
    exact inner.height_of_term ht
  | _, binary op _ left right, t, ht => by
    obtain ⟨tl, hl, tr, hr, rfl⟩ := term?_binary.mp ht
    rw [levels, Term.height, left.height_of_term hl, right.height_of_term hr]
  | _, negate inner, t, ht => by
    obtain ⟨ti, hi, rfl⟩ := term?_negate.mp ht
    rw [levels, Term.height, inner.height_of_term hi]
  | _, powerNegate base exponent, t, ht => by
    obtain ⟨tb, hb, te, he, rfl⟩ := term?_powerNegate.mp ht
    rw [levels, Term.height, Term.height, base.height_of_term hb, exponent.height_of_term he]
  | _, number x, t, ht => by
    cases ht
    rw [levels, Term.height]
  | _, name word, t, ht => by
    cases ht
    rw [levels, Term.height_ofName]
  | _, call word args, t, ht => by
    obtain ⟨function, -, ts, hts, -, rfl⟩ := term?_call.mp ht
    rw [levels, Term.height, heights_of_terms args hts]
  | _, bracket _ inner, t, ht => by
    rw [term?] at ht
    rw [levels]
    exact inner.height_of_term ht

theorem heights_of_terms : (args : List (Derivation .sum)) → ∀ {ts}, terms? args = some ts →
    Term.heights ts = argumentLevels args
  | [], ts, hts => by
    cases hts
    rw [argumentLevels, Term.heights]
  | first :: rest, ts, hts => by
    obtain ⟨t, ht, ts', hts', rfl⟩ := terms?_cons.mp hts
    rw [argumentLevels, Term.heights, first.height_of_term ht, heights_of_terms rest hts']

end

/-! ## A bound -/

/-- The height of the tallest terms that are read with some room. -/
def tallest : (room : Nat) → Nat
  | 0 => 0
  | 1 => 1
  | room + 2 => tallest (room + 1) + (room + 1)

theorem tallest_le_succ (room : Nat) : tallest room ≤ tallest (room + 1) := by
  cases room with
  | zero => exact Nat.zero_le 1
  | succ room => exact Nat.le_add_right ..

theorem tallest_mono {room room' : Nat} (h : room ≤ room') : tallest room ≤ tallest room' := by
  induction h with
  | refl => exact Nat.le_refl _
  | step _ ih => exact Nat.le_trans ih (tallest_le_succ _)

/-- Every operator of the spine takes depth, and its right operand takes some more. -/
theorem spine_eq_zero_or_lt : {s : Stratum} → (d : Derivation s) → 0 < d.need ∧ (d.spine = 0 ∨ d.spine + 2 ≤ d.need)
  | _, number _ => by rw [need]; exact ⟨Nat.one_pos, Or.inl rfl⟩
  | _, name _ => by rw [need]; exact ⟨Nat.one_pos, Or.inl rfl⟩
  | _, call _ _ => by rw [need]; exact ⟨Nat.succ_pos _, Or.inl rfl⟩
  | _, bracket _ _ => by rw [need]; exact ⟨Nat.succ_pos _, Or.inl rfl⟩
  | _, negate _ => by rw [need]; exact ⟨Nat.succ_pos _, Or.inl rfl⟩
  | _, lift _ inner => by
    have := inner.spine_eq_zero_or_lt
    rwa [need, spine]
  | _, binary _ _ left right => by
    have := right.spine_eq_zero_or_lt
    rw [need, spine]
    omega
  | _, powerNegate base exponent => by
    rw [need, spine]
    omega

/-- What the operators of the spine add to the tallest operand is at most what one more unit of room adds. -/
theorem le_tallest {s : Stratum} {d : Derivation s} {room : Nat} (hneed : d.need ≤ room)
    (h : d.levels ≤ tallest (room - 1) + 1 + d.spine) : d.levels ≤ tallest room := by
  have hspine := d.spine_eq_zero_or_lt
  match room with
  | 0 => omega
  | 1 =>
    have : tallest (1 - 1) = 0 := rfl
    have : tallest 1 = 1 := rfl
    omega
  | room + 2 =>
    have : tallest (room + 2) = tallest (room + 1) + (room + 1) := rfl
    have : room + 2 - 1 = room + 1 := rfl
    rw [this] at h
    omega

mutual

/-- The levels of a derivation, as far as they are not made by the operators of its spine. -/
theorem levels_le : {s : Stratum} → (d : Derivation s) → ∀ {room}, d.need ≤ room →
    d.levels ≤ tallest (room - 1) + 1 + d.spine
  | _, lift _ inner, room, h => by
    rw [need] at h
    rw [levels, spine]
    exact inner.levels_le h
  | _, binary _ _ left right, room, h => by
    rw [need] at h
    have hleft := left.levels_le (Nat.le_trans (Nat.le_max_left ..) h)
    have hright := le_tallest (Nat.le_refl _) (right.levels_le (Nat.le_refl right.need))
    have := tallest_mono (show right.need ≤ room - 1 by omega)
    rw [levels, spine]
    omega
  | _, negate inner, room, h => by
    rw [need] at h
    have hinner := le_tallest (by omega) (inner.levels_le (show inner.need ≤ room - 1 by omega))
    rw [levels]
    omega
  | _, powerNegate base exponent, room, h => by
    rw [need] at h
    have hbase := base.levels_le (Nat.le_trans (Nat.le_max_left ..) h)
    have hexponent := le_tallest (Nat.le_refl _) (exponent.levels_le (Nat.le_refl exponent.need))
    have := tallest_mono (show exponent.need ≤ room - 1 by omega)
    rw [levels, spine]
    omega
  | _, number _, room, _ => by
    rw [levels]
    omega
  | _, name _, room, _ => by
    rw [levels]
    omega
  | _, call _ args, room, h => by
    rw [need] at h
    have := argumentLevels_le args (show argumentNeed args ≤ room - 1 by omega)
    rw [levels]
    omega
  | _, bracket _ inner, room, h => by
    rw [need] at h
    have hinner := le_tallest (by omega) (inner.levels_le (show inner.need ≤ room - 1 by omega))
    rw [levels]
    omega

theorem argumentLevels_le : (args : List (Derivation .sum)) → ∀ {room}, argumentNeed args ≤ room →
    argumentLevels args ≤ tallest room
  | [], _, _ => by
    rw [argumentLevels]
    exact Nat.zero_le _
  | first :: rest, room, h => by
    rw [argumentNeed] at h
    have hfirst : first.need ≤ room := by omega
    have := le_tallest hfirst (first.levels_le hfirst)
    have := argumentLevels_le rest (show argumentNeed rest ≤ room by omega)
    rw [argumentLevels]
    omega

end

theorem levels_le_tallest {s : Stratum} (d : Derivation s) : d.levels ≤ tallest d.need :=
  le_tallest (Nat.le_refl _) (d.levels_le (Nat.le_refl _))

/-! ## Tall formulas -/

/-- An atom as a sum. -/
def ofAtom (d : Derivation .atom) : Derivation .sum := .lift nofun (.lift nofun (.lift nofun (.lift nofun d)))

/-- A sum plus `x`, some number of times. -/
def plus (d : Derivation .sum) : (times : Nat) → Derivation .sum
  | 0 => d
  | times + 1 => .binary .add rfl (plus d times) (.lift nofun (.lift nofun (.lift nofun (.name "x"))))

/-- `x`, and the absolute value of a tower plus as many `x` as fit the room that the value took. -/
def tower : Nat → Derivation .sum
  | 0 => ofAtom (.name "x")
  | n + 1 => plus (ofAtom (.call "abs" [tower n])) n

/-- `x` after minus signs. -/
def minuses : (signs : Nat) → Derivation .signed
  | 0 => .lift nofun (.lift nofun (.name "x"))
  | signs + 1 => .negate (minuses signs)

/-- How a sum plus `x` is written. -/
def plusText (text : List Char) : (times : Nat) → List Char
  | 0 => text
  | times + 1 => plusText text times ++ ['+', 'x']

/-- How a tower is written. -/
def towerText : Nat → List Char
  | 0 => ['x']
  | n + 1 => plusText ('a' :: ['b', 's'] ++ (['('] ++ (towerText n ++ [')']))) n

section Plus

variable {d : Derivation .sum}

theorem spine_plus (d : Derivation .sum) (times : Nat) : (plus d times).spine = d.spine + times := by
  induction times with
  | zero => rfl
  | succ times ih =>
    simp only [plus, spine, ih, Nat.add_assoc]

theorem levels_plus (times : Nat) (h : 0 < d.levels) : (plus d times).levels = d.levels + times := by
  induction times with
  | zero => rfl
  | succ times ih =>
    simp only [plus, levels, ih]
    omega

theorem need_plus (times : Nat) (h : d.spine = 0) :
    (plus d times).need = if times = 0 then d.need else max d.need (times + 2) := by
  induction times with
  | zero => rfl
  | succ times ih =>
    simp only [plus, need, ih, spine_plus, h, if_neg (Nat.succ_ne_zero times)]
    split <;> omega

theorem term_plus (times : Nat) {t : Term} (h : d.term? = some t) : ∃ t', (plus d times).term? = some t' := by
  induction times with
  | zero => exact ⟨t, h⟩
  | succ times ih =>
    obtain ⟨t', ht'⟩ := ih
    exact ⟨_, term?_binary.mpr ⟨t', ht', Term.ofName "x", rfl, rfl⟩⟩

open Token in
theorem writes_plus (times : Nat) {text : List Char} (h : Writes text d.kinds) :
    Writes (plusText text times) (plus d times).kinds := by
  induction times with
  | zero => exact h
  | succ times ih =>
    have hx : Writes ['x'] [.word "x"] := writes_word (by decide) (by decide) nofun
    show Writes (plusText text times ++ ['+', 'x']) ((plus d times).kinds ++ [.operator .add, .word "x"])
    exact ih.append (hx.sign (by decide)) fun cs => breaks_cons (by decide) _

end Plus

section Minuses

theorem spine_minuses (signs : Nat) : (minuses signs).spine = 0 := by
  cases signs <;> rfl

theorem need_minuses (signs : Nat) : (minuses signs).need = signs + 1 := by
  induction signs with
  | zero => rfl
  | succ signs ih =>
    rw [minuses, need, ih]

theorem levels_minuses (signs : Nat) : (minuses signs).levels = signs + 1 := by
  induction signs with
  | zero => rfl
  | succ signs ih =>
    rw [minuses, levels, ih]

theorem term_minuses (signs : Nat) : ∃ t, (minuses signs).term? = some t := by
  induction signs with
  | zero => exact ⟨Term.ofName "x", rfl⟩
  | succ signs ih =>
    obtain ⟨t, ht⟩ := ih
    exact ⟨.negate t, term?_negate.mpr ⟨t, ht, rfl⟩⟩

open Token in
theorem writes_minuses (signs : Nat) : Writes (List.replicate signs '-' ++ ['x']) (minuses signs).kinds := by
  induction signs with
  | zero => exact writes_word (by decide) (by decide) nofun
  | succ signs ih => exact ih.sign (by decide)

end Minuses

section Tower

theorem spine_argument (n : Nat) : (ofAtom (.call "abs" [tower n])).spine = 0 := rfl

theorem need_argument (n : Nat) : (ofAtom (.call "abs" [tower n])).need = (tower n).need + 1 := by
  simp [ofAtom, need, argumentNeed]

theorem levels_argument (n : Nat) : (ofAtom (.call "abs" [tower n])).levels = (tower n).levels + 1 := by
  simp [ofAtom, levels, argumentLevels]

/-- A tower needs one unit more than the one below it. -/
theorem need_tower (n : Nat) : (tower n).need = n + 1 := by
  induction n with
  | zero => rfl
  | succ n ih =>
    rw [tower, need_plus n (spine_argument n), need_argument, ih]
    split <;> omega

/-- Towers are as tall as terms get. -/
theorem levels_tower (n : Nat) : (tower n).levels = tallest (n + 1) := by
  induction n with
  | zero => rfl
  | succ n ih =>
    have hlevels := levels_argument n
    rw [tower, levels_plus n (by omega), hlevels, ih, tallest]
    omega

theorem term_tower (n : Nat) : ∃ t, (tower n).term? = some t := by
  induction n with
  | zero => exact ⟨Term.ofName "x", rfl⟩
  | succ n ih =>
    obtain ⟨t, ht⟩ := ih
    have harguments : terms? [tower n] = some [t] := terms?_cons.mpr ⟨t, ht, [], rfl, rfl⟩
    exact term_plus n (term?_call.mpr ⟨.abs, Builtin.ofName?_name .abs, [t], harguments, rfl, rfl⟩)

open Token in
theorem writes_tower (n : Nat) : Writes (towerText n) (tower n).kinds := by
  induction n with
  | zero => exact writes_word (by decide) (by decide) nofun
  | succ n ih =>
    have hclose : Writes [')'] [.closing .round] := writes_nil.sign (by decide)
    have hargument : Writes (towerText n ++ [')']) ((tower n).kinds ++ [.closing .round]) :=
      ih.append hclose fun cs => breaks_cons (by decide) _
    have hletters : ∀ c ∈ ['b', 's'], continuesWord c = true := List.all_eq_true.mp rfl
    have habs : Writes ('a' :: ['b', 's']) [.word "abs"] := writes_word (by decide) (by decide) hletters
    exact writes_plus n (habs.append (hargument.sign (by decide)) fun cs => breaks_cons (by decide) _)

end Tower

end Derivation

/-! ## Accepted formulas -/

section Accepted

open ParetoSweep.Derivation

variable {source : String} {tokens : List Token} {t : Term} {d : Derivation .sum}

theorem parse_of_derivation (hscan : Token.scan source = .ok tokens) (hkinds : d.kinds = tokens.map Token.kind)
    (hterm : d.term? = some t) :
    Formula.parse source = if d.need ≤ depthLimit then .ok ⟨source, t⟩ else .error .tooDeep := by
  unfold Formula.parse
  simp only [hscan, ok_bind, ofTokens_of_derivation hkinds hterm]
  split <;> rfl

/-- What is accepted has a derivation that does not need more than the depth limit. -/
theorem exists_derivation {formula : Formula} (h : Formula.parse source = .ok formula) :
    ∃ tokens, Token.scan source = .ok tokens ∧ ∃ d : Derivation .sum, d.kinds = tokens.map Token.kind ∧
      d.term? = some formula.term ∧ d.need ≤ depthLimit := by
  obtain ⟨tokens, hscan, h⟩ := bind_eq_ok.mp h
  obtain ⟨t, hread, h⟩ := bind_eq_ok.mp h
  cases h
  obtain ⟨d, hkinds, hterm⟩ := derives_of_ofTokens hread
  rw [ofTokens_of_derivation hkinds hterm] at hread
  split at hread
  · exact ⟨tokens, hscan, d, hkinds, hterm, ‹_›⟩
  · cases hread

/-- A text that writes a derivation is accepted if there is room for it. -/
theorem parse_of_writes {text : List Char} (h : Token.Writes text d.kinds) (hterm : d.term? = some t)
    (hneed : d.need ≤ depthLimit) : ∃ formula, Formula.parse (String.ofList text) = .ok formula ∧ formula.term = t := by
  obtain ⟨tokens, hscan, hkinds⟩ := h.scan
  exact ⟨⟨_, t⟩, (parse_of_derivation hscan hkinds.symm hterm).trans (if_pos hneed), rfl⟩

theorem tallest_depthLimit : tallest depthLimit = 130817 := by decide +kernel

theorem height_le {formula : Formula} (h : Formula.parse source = .ok formula) : formula.term.height ≤ 130817 := by
  obtain ⟨-, -, d, -, hterm, hneed⟩ := exists_derivation h
  rw [height_of_term d hterm, ← tallest_depthLimit]
  exact Nat.le_trans (levels_le_tallest d) (tallest_mono hneed)

/-- **The tallest term of an accepted formula has 130817 levels.** -/
theorem isGreatest_height :
    IsGreatest {h | ∃ source formula, Formula.parse source = .ok formula ∧ formula.term.height = h} 130817 := by
  constructor
  · obtain ⟨t, ht⟩ := term_tower 511
    have hneed : (tower 511).need ≤ depthLimit := by rw [need_tower]; decide
    obtain ⟨formula, hparse, rfl⟩ := parse_of_writes (writes_tower 511) ht hneed
    refine ⟨_, formula, hparse, ?_⟩
    rw [height_of_term _ ht, levels_tower]
    exact tallest_depthLimit
  · rintro _ ⟨source, formula, hparse, rfl⟩
    exact height_le hparse

/-- **When the depth limit bounds the height.** A text gives no term taller than the depth limit iff its derivation has
no more levels than that or needs more depth than that; and no text gives a term taller than 130817. -/
theorem height_parse (source : String) :
    ((∀ formula, Formula.parse source = .ok formula → formula.term.height ≤ depthLimit) ↔
      ∀ tokens (d : Derivation .sum) t, Token.scan source = .ok tokens → d.kinds = tokens.map Token.kind →
        d.term? = some t → d.need ≤ depthLimit → d.levels ≤ depthLimit) ∧
      ∀ formula, Formula.parse source = .ok formula → formula.term.height ≤ 130817 := by
  refine ⟨⟨fun h tokens d t hscan hkinds hterm hneed => ?_, fun h formula hparse => ?_⟩, fun _ => height_le⟩
  · have hparse := parse_of_derivation hscan hkinds hterm
    rw [if_pos hneed] at hparse
    rw [← height_of_term d hterm]
    exact h _ hparse
  · obtain ⟨tokens, hscan, d, hkinds, hterm, hneed⟩ := exists_derivation hparse
    rw [height_of_term d hterm]
    exact h tokens d _ hscan hkinds hterm hneed

theorem height_parse_tower :
    ¬ ∀ formula, Formula.parse (String.ofList (towerText 32)) = .ok formula → formula.term.height ≤ depthLimit := by
  obtain ⟨tokens, hscan, hkinds⟩ := (writes_tower 32).scan
  obtain ⟨t, ht⟩ := term_tower 32
  intro h
  have hlevels := (height_parse _).1.mp h tokens (tower 32) t hscan hkinds.symm ht (by rw [need_tower]; decide)
  rw [levels_tower] at hlevels
  exact absurd hlevels (by decide)

/-- As many minus signs as the limit allows, `x`, and another `x` added to it are accepted and taller than the limit. -/
theorem exists_height_gt_depthLimit :
    ∃ formula, Formula.parse (String.ofList (List.replicate 511 '-' ++ ['x', '+', 'x'])) = .ok formula ∧
      ¬ formula.term.height ≤ depthLimit := by
  let d : Derivation .sum := .lift nofun (.lift nofun (minuses 511))
  have hspine : d.spine = 0 := spine_minuses 511
  have hneed : d.need = 512 := need_minuses 511
  have hlevels : d.levels = 512 := levels_minuses 511
  obtain ⟨t, ht⟩ := term_minuses 511
  obtain ⟨t', ht'⟩ := term_plus (d := d) 1 ht
  have htext : plusText (List.replicate 511 '-' ++ ['x']) 1 = List.replicate 511 '-' ++ ['x', '+', 'x'] :=
    List.append_assoc ..
  have hroom : (plus d 1).need ≤ depthLimit := by
    rw [need_plus 1 hspine, hneed]
    decide
  obtain ⟨formula, hparse, rfl⟩ := parse_of_writes (writes_plus (d := d) 1 (writes_minuses 511)) ht' hroom
  refine ⟨formula, htext ▸ hparse, ?_⟩
  rw [height_of_term _ ht', levels_plus 1 (by omega), hlevels]
  decide

end Accepted
end ParetoSweep
