import ParetoSweep.Proofs.Formula.Text
import ParetoSweep.Proofs.Number.Numeral

/-!
# Lexemes

The tokens of a text are laid out in it with nothing but blanks in between (`Layout`), and each of them stands where its
kind says: a sign is one character, and a word or a numeral is the longest one at its place (`Munch`). A text without
tokens is fine up to the place of the fault (`BreaksOff`). Both are shown along the scan (`layout_of_scanFrom`,
`faultAt_of_scanFrom`).
-/

namespace ParetoSweep
namespace Token

/-! ## Kinds of lexemes -/

/-- No longer text of a kind stands at the same place. -/
def Longest (P : List Char → Prop) (lexeme rest : List Char) : Prop :=
  P lexeme ∧ ∀ longer, P longer → longer <+: lexeme ++ rest → longer.length ≤ lexeme.length

/-- A letter or an underscore, and then letters, digits and underscores. -/
def IsWord (cs : List Char) : Prop :=
  ∃ c tail, cs = c :: tail ∧ startsWord c = true ∧ ∀ d ∈ tail, continuesWord d = true

/-- A digit or a point. -/
abbrev StartsNumeral (c : Char) : Prop := c.isDigit = true ∨ c = '.'

/-- The spelling of a numeral that starts with a digit or a point. -/
def IsNumeral (cs : List Char) : Prop :=
  (∃ n : Numeral, n.WellFormed ∧ n.text = cs) ∧ ∃ c ∈ cs.head?, StartsNumeral c

/-- A token of some kind is spelled by a lexeme, which is the longest of its sort in front of the rest. -/
inductive Munch : Kind → List Char → List Char → Prop where
  | sign {c : Char} {kind : Kind} {rest : List Char} (h : Kind.ofSign? c = some kind) : Munch kind [c] rest
  | word {lexeme rest : List Char} (h : Longest IsWord lexeme rest) :
    Munch (.word (String.ofList lexeme)) lexeme rest
  | number {n : Numeral} {value : Float} {rest : List Char} (hn : n.WellFormed) (h : Longest IsNumeral n.text rest)
    (hvalue : n.value? = some value) : Munch (.number value) n.text rest

/-- The size of a text in octets. -/
def size (cs : List Char) : Nat := (String.ofList cs).utf8ByteSize

/-- Tokens make up a text that starts at an offset, with blanks before, between and after them. -/
inductive Layout : Nat → List Char → List Token → Prop where
  | nil {offset : Nat} {blanks : List Char} (h : ∀ c ∈ blanks, isBlank c = true) : Layout offset blanks []
  | cons {offset : Nat} {blanks lexeme rest : List Char} {kind : Kind} {tokens : List Token}
    (hblanks : ∀ c ∈ blanks, isBlank c = true) (hlexeme : Munch kind lexeme rest)
    (h : Layout (offset + size blanks + size lexeme) rest tokens) :
    Layout offset (blanks ++ (lexeme ++ rest)) (⟨kind, offset + size blanks⟩ :: tokens)

/-- What a text at an offset starts with is no token: a character that no token starts with, or the longest numeral,
which has no digit before its power of ten. -/
def BreaksOff (offset : Nat) (cs : List Char) : Fault → Prop
  | .unexpectedChar found position => position = offset ∧ cs.head? = some found ∧ isBlank found = false ∧
      ∀ kind tail rest, ¬ Munch kind (found :: tail) rest
  | .invalidNumber text position => position = offset ∧ ∃ (n : Numeral) (rest : List Char),
      n.WellFormed ∧ String.ofList n.text = text ∧ n.text ++ rest = cs ∧ Longest IsNumeral n.text rest ∧
        n.whole ++ n.fraction.getD [] = []
  | _ => False

/-! ## Characters -/

section Characters

variable {c : Char} {cs cs' : List Char} {kind : Kind}

theorem size_append : size (cs ++ cs') = size cs + size cs' := by
  rw [size, String.ofList_append, String.utf8ByteSize_append]
  rfl

theorem size_cons : size (c :: cs) = c.utf8Size + size cs := by
  rw [← List.singleton_append, size_append, size, ← String.singleton_eq_ofList, String.utf8ByteSize_singleton]

/-- ASCII characters take one octet each. -/
theorem size_eq_length (h : ∀ c ∈ cs, c.val ≤ 127) : size cs = cs.length := by
  induction cs with
  | nil => rfl
  | cons c cs ih =>
    rw [size_cons, Char.utf8Size_eq_one_iff.mpr (h c List.mem_cons_self),
      ih fun d hd => h d (List.mem_cons_of_mem c hd), List.length_cons, Nat.add_comm]

theorem ascii_of_isDigit (h : c.isDigit = true) : c.val ≤ 127 := by
  have h9 : c.val ≤ '9'.val := of_decide_eq_true (Bool.and_eq_true_iff.mp h).2
  exact UInt32.le_trans h9 (by decide)

theorem ascii_of_isAlpha (h : c.isAlpha = true) : c.val ≤ 127 := by
  rcases Bool.or_eq_true_iff.mp h with h | h
  · have hZ : c.val ≤ 'Z'.val := (of_decide_eq_true h).2
    exact UInt32.le_trans hZ (by decide)
  · have hz : c.val ≤ 'z'.val := of_decide_eq_true (Bool.and_eq_true_iff.mp h).2
    exact UInt32.le_trans hz (by decide)

theorem ascii_of_isBlank (h : isBlank c = true) : c.val ≤ 127 := by
  simp only [isBlank, Bool.or_eq_true, beq_iff_eq] at h
  rcases h with (((rfl | rfl) | rfl) | rfl) | rfl <;> decide

theorem continuesWord_of_startsWord (h : startsWord c = true) : continuesWord c = true := by
  rcases Bool.or_eq_true_iff.mp h with h | h
  · simp [continuesWord, Char.isAlphanum, h]
  · simp [continuesWord, h]

theorem ascii_of_continuesWord (h : continuesWord c = true) : c.val ≤ 127 := by
  rcases Bool.or_eq_true_iff.mp h with h | h
  · rcases Bool.or_eq_true_iff.mp h with h | h
    · exact ascii_of_isAlpha h
    · exact ascii_of_isDigit h
  · cases beq_iff_eq.mp h
    decide

/-- A sign is nothing else, and it is one of eleven characters. -/
theorem isSign_of_ofSign? (h : Kind.ofSign? c = some kind) : IsSign c kind ∧ c.val ≤ 127 := by
  have hc : c ∈ ['(', '[', ')', ']', ',', '+', '-', '*', '/', '%', '^'] := by
    unfold Kind.ofSign? Operator.ofSymbol? at h
    split at h <;> try simp
    split at h <;> simp_all
  simp only [List.mem_cons, List.not_mem_nil, or_false] at hc
  rcases hc with rfl | rfl | rfl | rfl | rfl | rfl | rfl | rfl | rfl | rfl | rfl <;>
    exact ⟨⟨rfl, rfl, by decide, h⟩, by decide⟩

/-- All characters of a numeral are ASCII. -/
theorem ascii_of_wellFormed {n : Numeral} (hn : n.WellFormed) (hc : c ∈ n.text) : c.val ≤ 127 := by
  rcases Numeral.isPart_of_mem_text hn hc with hdigit | hsign
  · exact ascii_of_isDigit hdigit
  · simp only [List.mem_cons, List.not_mem_nil, or_false] at hsign
    rcases hsign with rfl | rfl | rfl | rfl | rfl <;> decide

end Characters

/-! ## Lexemes that are scanned -/

section Lexemes

variable {c : Char} {cs lexeme rest : List Char} {kind : Kind} {offset : Nat} {tokens : List Token} {fault : Fault}

theorem IsWord.ascii (h : IsWord lexeme) : ∀ c ∈ lexeme, c.val ≤ 127 := by
  obtain ⟨c, tail, rfl, hc, htail⟩ := h
  intro d hd
  rcases List.mem_cons.mp hd with rfl | hd
  · exact ascii_of_continuesWord (continuesWord_of_startsWord hc)
  · exact ascii_of_continuesWord (htail d hd)

theorem Munch.ascii (h : Munch kind lexeme rest) : ∀ c ∈ lexeme, c.val ≤ 127 := by
  cases h with
  | sign h =>
    intro d hd
    cases List.mem_singleton.mp hd
    exact (isSign_of_ofSign? h).2
  | word h => exact h.1.ascii
  | number hn h => exact fun _ => ascii_of_wellFormed hn

theorem Munch.ne_nil (h : Munch kind lexeme rest) : lexeme ≠ [] := by
  cases h with
  | sign h => exact List.cons_ne_nil _ _
  | word h =>
    obtain ⟨⟨c, tail, rfl, -⟩, -⟩ := h
    exact List.cons_ne_nil c tail
  | number hn h =>
    obtain ⟨⟨-, c, hc, -⟩, -⟩ := h
    rintro heq
    rw [heq] at hc
    cases hc

/-- A word takes all letters, digits and underscores behind its first character. -/
theorem longest_word (hc : startsWord c = true) (cs : List Char) :
    Longest IsWord (c :: cs.takeWhile continuesWord) (cs.dropWhile continuesWord) := by
  refine ⟨⟨c, _, rfl, hc, fun d => List.mem_takeWhile_imp⟩, ?_⟩
  rintro _ ⟨d, tail, rfl, -, htail⟩ hstarts
  rw [List.cons_append, List.takeWhile_append_dropWhile] at hstarts
  obtain ⟨-, more, rfl⟩ := List.cons_prefix_cons.mp hstarts
  rw [List.takeWhile_append_of_pos htail]
  simp

theorem text_scan_eq_cons (hc : StartsNumeral c) (cs : List Char) :
    ∃ tail, (Numeral.scan (c :: cs)).1.text = c :: tail := by
  have htext := Numeral.text_scan (c :: cs)
  have hshorter := Numeral.length_scan_lt cs hc
  cases hn : (Numeral.scan (c :: cs)).1.text with
  | nil =>
    rw [hn, List.nil_append] at htext
    rw [htext] at hshorter
    exact absurd hshorter (Nat.lt_irrefl _)
  | cons d tail =>
    rw [hn, List.cons_append] at htext
    obtain ⟨rfl, -⟩ := List.cons.inj htext
    exact ⟨tail, rfl⟩

/-- What is split off a text is the longest numeral that it starts with. -/
theorem longest_numeral (hc : StartsNumeral c) (cs : List Char) :
    Longest IsNumeral (Numeral.scan (c :: cs)).1.text (Numeral.scan (c :: cs)).2 := by
  obtain ⟨tail, htail⟩ := text_scan_eq_cons hc cs
  refine ⟨⟨⟨_, Numeral.wellFormed_scan _, rfl⟩, c, by rw [htail]; rfl, hc⟩, ?_⟩
  rintro _ ⟨⟨n, hn, rfl⟩, -⟩ hstarts
  rw [Numeral.text_scan] at hstarts
  exact Numeral.length_le_scan hn hstarts

/-! ## Texts that are scanned -/

theorem scanFrom_blank (h : isBlank c = true) : scanFrom offset (c :: cs) = scanFrom (offset + 1) cs := by
  rw [scanFrom, if_pos h]

theorem scanFrom_word (hblank : ¬ isBlank c = true) (h : startsWord c = true) : scanFrom offset (c :: cs) =
    scanFrom (offset + (c :: cs.takeWhile continuesWord).length) (cs.dropWhile continuesWord) >>= fun tokens =>
      .ok (⟨.word (String.ofList (c :: cs.takeWhile continuesWord)), offset⟩ :: tokens) := by
  rw [scanFrom, if_neg hblank, if_pos h, List.length_cons, ← Nat.add_assoc, Nat.add_right_comm]
  rfl

theorem scanFrom_number (hblank : ¬ isBlank c = true) (hword : ¬ startsWord c = true) (h : StartsNumeral c) :
    scanFrom offset (c :: cs) = match (Numeral.scan (c :: cs)).1.value? with
      | none => .error (.invalidNumber (String.ofList (Numeral.scan (c :: cs)).1.text) offset)
      | some value => scanFrom (offset + (Numeral.scan (c :: cs)).1.text.length) (Numeral.scan (c :: cs)).2 >>=
          fun tokens => .ok (⟨.number value, offset⟩ :: tokens) := by
  rw [scanFrom, if_neg hblank, if_neg hword, if_pos h]
  rfl

theorem scanFrom_sign (h : Kind.ofSign? c = some kind) :
    scanFrom offset (c :: cs) = scanFrom (offset + 1) cs >>= fun tokens => .ok (⟨kind, offset⟩ :: tokens) := by
  obtain ⟨⟨hblank, hword, hnumeral, -⟩, -⟩ := isSign_of_ofSign? h
  rw [scanFrom, hblank, hword, if_neg Bool.false_ne_true, if_neg Bool.false_ne_true, if_neg hnumeral, h]
  rfl

theorem scanFrom_stray (hblank : ¬ isBlank c = true) (hword : ¬ startsWord c = true) (hnumeral : ¬ StartsNumeral c)
    (h : Kind.ofSign? c = none) : scanFrom offset (c :: cs) = .error (.unexpectedChar c offset) := by
  rw [scanFrom, if_neg hblank, if_neg hword, if_neg hnumeral, h]

/-- One more blank in front of a text. -/
theorem Layout.blank (hc : isBlank c = true) (h : Layout (offset + 1) cs tokens) : Layout offset (c :: cs) tokens := by
  have hsize : c.utf8Size = 1 := Char.utf8Size_eq_one_iff.mpr (ascii_of_isBlank hc)
  have hmem : ∀ {blanks : List Char}, (∀ d ∈ blanks, isBlank d = true) → ∀ d ∈ c :: blanks, isBlank d = true :=
    fun h => List.forall_mem_cons.mpr ⟨hc, h⟩
  cases h with
  | nil h => exact .nil (hmem h)
  | @cons _ blanks lexeme rest kind tokens hblanks hlexeme h =>
    have hoffset : offset + 1 + size blanks = offset + size (c :: blanks) := by rw [size_cons, hsize, Nat.add_assoc]
    rw [hoffset] at h ⊢
    exact .cons (hmem hblanks) hlexeme h

/-- A lexeme in front of a text. -/
theorem Layout.prepend (hlexeme : Munch kind lexeme rest) (h : Layout (offset + lexeme.length) rest tokens) :
    Layout offset (lexeme ++ rest) (⟨kind, offset⟩ :: tokens) := by
  rw [← size_eq_length hlexeme.ascii] at h
  exact Layout.cons (List.forall_mem_nil _) hlexeme h

/-- Whatever is scanned is laid out in the text. -/
theorem layout_of_scanFrom : ∀ tokens, scanFrom offset cs = .ok tokens → Layout offset cs tokens := by
  induction offset, cs using scanFrom.induct with
  | case1 offset =>
    intro tokens h
    rw [scanFrom] at h
    cases h
    exact .nil (List.forall_mem_nil _)
  | case2 offset c cs hblank ih =>
    intro tokens h
    rw [scanFrom_blank hblank] at h
    exact (ih _ h).blank hblank
  | case3 offset c cs hblank hword tail ih =>
    intro tokens h
    rw [scanFrom_word hblank hword] at h
    rw [Nat.add_assoc, Nat.add_comm 1, ← List.length_cons] at ih
    obtain ⟨tokens', hscan, hpure⟩ := bind_eq_ok.mp h
    cases hpure
    have hlayout := Layout.prepend (.word (longest_word hword cs)) (ih _ hscan)
    rwa [List.cons_append, List.takeWhile_append_dropWhile] at hlayout
  | case4 offset c cs hblank hword hnumeral numeral hvalue =>
    intro tokens h
    rw [scanFrom_number hblank hword hnumeral, hvalue] at h
    cases h
  | case5 offset c cs hblank hword hnumeral numeral value hvalue ih =>
    intro tokens h
    rw [scanFrom_number hblank hword hnumeral, hvalue] at h
    obtain ⟨tokens', hscan, hpure⟩ := bind_eq_ok.mp h
    cases hpure
    have hmunch := Munch.number (Numeral.wellFormed_scan _) (longest_numeral hnumeral cs) hvalue
    have hlayout := Layout.prepend hmunch (ih _ hscan)
    rwa [Numeral.text_scan] at hlayout
  | case6 offset c cs hblank hword hnumeral hsign =>
    intro tokens h
    rw [scanFrom_stray hblank hword hnumeral hsign] at h
    cases h
  | case7 offset c cs hblank hword hnumeral kind hsign ih =>
    intro tokens h
    rw [scanFrom_sign hsign] at h
    obtain ⟨tokens', hscan, hpure⟩ := bind_eq_ok.mp h
    cases hpure
    exact Layout.prepend (.sign hsign) (ih _ hscan)

theorem Layout.le_position (h : Layout offset cs tokens) : ∀ token ∈ tokens, offset ≤ token.position := by
  induction h with
  | nil => nofun
  | cons hblanks hlexeme h ih =>
    refine List.forall_mem_cons.mpr ⟨Nat.le_add_right _ _, fun token htoken => ?_⟩
    have := ih token htoken
    omega

/-- Tokens that are laid out in a text stand one behind the other. -/
theorem Layout.pairwise (h : Layout offset cs tokens) : tokens.Pairwise (·.position < ·.position) := by
  induction h with
  | nil => exact .nil
  | cons hblanks hlexeme h ih =>
    refine List.pairwise_cons.mpr ⟨fun token htoken => ?_, ih⟩
    have hle := h.le_position token htoken
    have hpos := List.length_pos_iff.mpr hlexeme.ne_nil
    rw [size_eq_length hlexeme.ascii] at hle
    dsimp only
    omega

/-- A character that no token starts with. -/
theorem not_munch (hword : ¬ startsWord c = true) (hnumeral : ¬ StartsNumeral c) (hsign : Kind.ofSign? c = none)
    (kind : Kind) (tail rest : List Char) : ¬ Munch kind (c :: tail) rest := by
  generalize hlexeme : c :: tail = lexeme
  intro h
  cases h with
  | sign h =>
    cases hlexeme
    rw [hsign] at h
    cases h
  | word h =>
    obtain ⟨⟨d, tail', rfl, hd, -⟩, -⟩ := h
    cases hlexeme
    exact hword hd
  | number hn h =>
    obtain ⟨⟨-, d, hd, hstart⟩, -⟩ := h
    rw [← hlexeme] at hd
    cases hd
    exact hnumeral hstart

/-- A numeral without a value has no digit before its power of ten. -/
theorem digits_eq_nil {n : Numeral} (h : n.value? = none) : n.whole ++ n.fraction.getD [] = [] := by
  unfold Numeral.value? at h
  dsimp only at h
  split at h
  · exact List.isEmpty_iff.mp ‹_›
  · cases h

/-- The text before a fault is scanned, and at the fault there is no token. -/
def FaultAt (offset : Nat) (cs : List Char) (fault : Fault) : Prop :=
  ∃ before rest, cs = before ++ rest ∧ (∃ tokens, scanFrom offset before = .ok tokens) ∧
    BreaksOff (offset + size before) rest fault

/-- A fault behind a lexeme. -/
theorem FaultAt.append (hascii : ∀ c ∈ lexeme, c.val ≤ 127)
    (hscan : ∀ before after tokens, rest = before ++ after →
      scanFrom (offset + lexeme.length) before = .ok tokens →
        ∃ tokens', scanFrom offset (lexeme ++ before) = .ok tokens')
    (h : FaultAt (offset + lexeme.length) rest fault) : FaultAt offset (lexeme ++ rest) fault := by
  obtain ⟨before, after, rfl, ⟨tokens, hbefore⟩, hbreaks⟩ := h
  refine ⟨lexeme ++ before, after, by simp, hscan before after tokens rfl hbefore, ?_⟩
  rwa [size_append, size_eq_length hascii, ← Nat.add_assoc]

/-- Wherever a scan fails, there is no token. -/
theorem faultAt_of_scanFrom (h : scanFrom offset cs = .error fault) : FaultAt offset cs fault := by
  induction offset, cs using scanFrom.induct with
  | case1 offset =>
    rw [scanFrom] at h
    cases h
  | case2 offset c cs hblank ih =>
    rw [scanFrom_blank hblank] at h
    have hascii : ∀ d ∈ [c], d.val ≤ 127 := by simpa using ascii_of_isBlank hblank
    refine FaultAt.append hascii ?_ (ih h)
    intro before _ tokens _ hbefore
    exact ⟨tokens, (scanFrom_blank hblank).trans hbefore⟩
  | case3 offset c cs hblank hword tail ih =>
    rw [scanFrom_word hblank hword] at h
    rcases bind_eq_error.mp h with hscan | ⟨tokens, -, hpure⟩
    · rw [Nat.add_assoc, Nat.add_comm 1, ← List.length_cons] at ih
      have hfault := FaultAt.append (longest_word hword cs).1.ascii ?_ (ih hscan)
      · rwa [List.cons_append, List.takeWhile_append_dropWhile] at hfault
      intro before after tokens hrest hbefore
      have hbreaks : Breaks before := by
        intro d hd
        have hhead := List.head?_dropWhile_not continuesWord cs
        rw [hrest, List.head?_append, hd] at hhead
        exact hhead
      obtain ⟨htake, hdrop⟩ := takeWhile_word (fun d => List.mem_takeWhile_imp) hbreaks
      rw [List.cons_append, scanFrom_word hblank hword, htake, hdrop, hbefore]
      exact ⟨_, rfl⟩
    · cases hpure
  | case4 offset c cs hblank hword hnumeral numeral hvalue =>
    rw [scanFrom_number hblank hword hnumeral, hvalue] at h
    cases h
    exact ⟨[], c :: cs, rfl, ⟨[], by rw [scanFrom]⟩, rfl, _, _, Numeral.wellFormed_scan _, rfl, Numeral.text_scan _,
      longest_numeral hnumeral cs, digits_eq_nil hvalue⟩
  | case5 offset c cs hblank hword hnumeral numeral value hvalue ih =>
    rw [scanFrom_number hblank hword hnumeral, hvalue] at h
    rcases bind_eq_error.mp h with hscan | ⟨tokens, -, hpure⟩
    · have hascii : ∀ d ∈ (Numeral.scan (c :: cs)).1.text, d.val ≤ 127 :=
        fun d => ascii_of_wellFormed (Numeral.wellFormed_scan _)
      have hfault := FaultAt.append hascii ?_ (ih hscan)
      · rwa [Numeral.text_scan] at hfault
      intro before after tokens hrest hbefore
      obtain ⟨tail, htail⟩ := text_scan_eq_cons hnumeral cs
      have hcut := Numeral.scan_append_of_scan (Prod.ext rfl hrest)
      refine ⟨⟨.number value, offset⟩ :: tokens, ?_⟩
      rw [htail, List.cons_append] at hcut ⊢
      rw [scanFrom_number hblank hword hnumeral, hcut, hvalue]
      dsimp only
      rw [hbefore, ok_bind]
    · cases hpure
  | case6 offset c cs hblank hword hnumeral hsign =>
    rw [scanFrom_stray hblank hword hnumeral hsign] at h
    cases h
    exact ⟨[], c :: cs, rfl, ⟨[], by rw [scanFrom]⟩, rfl, rfl, eq_false_of_ne_true hblank,
      not_munch hword hnumeral hsign⟩
  | case7 offset c cs hblank hword hnumeral kind hsign ih =>
    rw [scanFrom_sign hsign] at h
    rcases bind_eq_error.mp h with hscan | ⟨tokens, -, hpure⟩
    · have hascii : ∀ d ∈ [c], d.val ≤ 127 := by simpa using (isSign_of_ofSign? hsign).2
      refine FaultAt.append hascii ?_ (ih hscan)
      intro before after tokens _ hbefore
      refine ⟨⟨kind, offset⟩ :: tokens, ?_⟩
      rw [List.singleton_append, scanFrom_sign hsign, ← List.length_singleton, hbefore, ok_bind]
    · cases hpure

end Lexemes

end Token
end ParetoSweep
