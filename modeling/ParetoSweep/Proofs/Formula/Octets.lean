import ParetoSweep.Proofs.Formula.Lexeme

/-!
# Scanning octets

A text may also be scanned octet by octet, with byte offsets into its UTF-8 encoding where lexemes are cut out
(`scanOctets?`). Cutting inside a character would be an error of its own, but it never happens, and the result is that
of the scan by characters (`scanOctets?_eq`): every character of a lexeme is ASCII, and the octets of other characters
are none of those that lexemes are made of (`encoded_cons`).
-/

namespace ParetoSweep
namespace Token

/-- The octets of a text, each taken for a character on its own. -/
def octets (source : String) : List Char := source.toByteArray.data.toList.map Char.ofUInt8

/-- The part of a text between two byte offsets, unless one of them is inside a character. -/
def cut? (source : String) (start stop : Nat) : Option String :=
  if h : start ≤ stop ∧ String.Pos.Raw.IsValid source ⟨start⟩ ∧ String.Pos.Raw.IsValid source ⟨stop⟩ then
    some (source.extract ⟨⟨start⟩, h.2.1⟩ ⟨⟨stop⟩, h.2.2⟩)
  else none

/-- The tokens of a text from a byte offset on, where the given octets are left, unless the text is cut inside a
character. -/
def scanOctets? (source : String) (position : Nat) : List Char → Option (Except Fault (List Token))
  | [] => some (.ok [])
  | c :: cs =>
    if isBlank c then scanOctets? source (position + 1) cs
    else
      match Kind.ofSign? c with
      | some kind => (scanOctets? source (position + 1) cs).map (Except.map (⟨kind, position⟩ :: ·))
      | none =>
        if StartsNumeral c then do
          let stop := position + (Numeral.scan (c :: cs)).1.text.length
          let text ← cut? source position stop
          match (Numeral.scan text.toList).1.value? with
          | none => some (.error (.invalidNumber text position))
          | some value =>
            (scanOctets? source stop (Numeral.scan (c :: cs)).2).map (Except.map (⟨.number value, position⟩ :: ·))
        else if startsWord c then do
          let stop := position + (c :: cs.takeWhile continuesWord).length
          let word ← cut? source position stop
          (scanOctets? source stop (cs.dropWhile continuesWord)).map (Except.map (⟨.word word, position⟩ :: ·))
        else do
          -- The character is read as a whole, whatever its first octet is.
          let rest ← cut? source position source.utf8ByteSize
          some (.error (.unexpectedChar (rest.toList.headD c) position))
termination_by cs => cs.length
decreasing_by
  · simp
  · simp
  · exact Numeral.length_scan_lt cs (by assumption)
  · exact Nat.lt_succ_of_le (List.dropWhile_suffix continuesWord).length_le

/-! ## Encoded characters -/

/-- The octets of some characters. -/
def encoded (cs : List Char) : List Char := cs.flatMap fun c => (String.utf8EncodeChar c).map Char.ofUInt8

section Encoded

variable {c : Char} {cs : List Char} {p : Char → Bool}

theorem octets_ofList (cs : List Char) : octets (String.ofList cs) = encoded cs := by
  rw [octets, String.toByteArray_ofList, List.utf8Encode, List.data_toByteArray, encoded, List.map_flatMap]

theorem ofUInt8_val (c : Char) (h : c.val ≤ 127) : Char.ofUInt8 (UInt8.ofNat c.val.toNat) = c := by
  have hle : c.val.toNat ≤ 127 := h
  apply Char.ext
  apply UInt32.toNat_inj.mp
  show (UInt8.ofNat c.val.toNat).toUInt32.toNat = _
  rw [UInt8.toNat_toUInt32, UInt8.toNat_ofNat']
  omega

/-- An octet from `0x80` on is no ASCII character. -/
theorem lt_val_ofUInt8 {n : Nat} (h : 128 ≤ n) (hn : n < 256) : 127 < (Char.ofUInt8 (UInt8.ofNat n)).val := by
  show 127 < (UInt8.ofNat n).toUInt32.toNat
  rw [UInt8.toNat_toUInt32, UInt8.toNat_ofNat']
  omega

/-- ASCII characters are octets themselves, and the first octet of any other one is no ASCII character. -/
theorem encoded_cons (c : Char) (cs : List Char) : c.val ≤ 127 ∧ encoded (c :: cs) = c :: encoded cs ∨
    127 < c.val ∧ ∃ d tail, encoded (c :: cs) = d :: tail ∧ 127 < d.val := by
  by_cases h : c.val ≤ 127
  · left
    have hchar : String.utf8EncodeChar c = [UInt8.ofNat c.val.toNat] := if_pos h
    refine ⟨h, ?_⟩
    rw [encoded, List.flatMap_cons, hchar, List.map_singleton, ofUInt8_val c h]
    rfl
  · right
    refine ⟨UInt32.not_le.mp h, ?_⟩
    have hv : ¬ c.val.toNat ≤ 127 := h
    have hmax : c.val.toNat < 0x110000 := by
      have := c.valid
      simp only [UInt32.isValidChar, Nat.isValidChar] at this
      omega
    rw [encoded, List.flatMap_cons, String.utf8EncodeChar, if_neg hv]
    split
    · exact ⟨_, _, rfl, lt_val_ofUInt8 (by omega) (by omega)⟩
    · split
      · exact ⟨_, _, rfl, lt_val_ofUInt8 (by omega) (by omega)⟩
      · exact ⟨_, _, rfl, lt_val_ofUInt8 (by omega) (by omega)⟩

theorem encoded_cons_of_ascii (h : c.val ≤ 127) : encoded (c :: cs) = c :: encoded cs := by
  rcases encoded_cons c cs with ⟨-, hcons⟩ | ⟨hlt, -⟩
  · exact hcons
  · exact absurd h (UInt32.not_le.mpr hlt)

/-- A run of ASCII characters of some sort is the same run of octets. -/
theorem takeWhile_encoded (hp : ∀ c, p c = true → c.val ≤ 127) (cs : List Char) :
    (encoded cs).takeWhile p = cs.takeWhile p ∧ (encoded cs).dropWhile p = encoded (cs.dropWhile p) := by
  induction cs with
  | nil => exact ⟨rfl, rfl⟩
  | cons c cs ih =>
    by_cases hc : p c = true
    · rw [encoded_cons_of_ascii (hp c hc), List.takeWhile_cons_of_pos hc, List.takeWhile_cons_of_pos hc,
        List.dropWhile_cons_of_pos hc, List.dropWhile_cons_of_pos hc, ih.1, ih.2]
      exact ⟨rfl, rfl⟩
    · rw [List.takeWhile_cons_of_neg hc, List.dropWhile_cons_of_neg hc]
      rcases encoded_cons c cs with ⟨-, hcons⟩ | ⟨-, d, tail, hcons, hd⟩
      · rw [hcons, List.takeWhile_cons_of_neg hc, List.dropWhile_cons_of_neg hc]
        exact ⟨rfl, rfl⟩
      · have hne : ¬ p d = true := fun hpd => absurd (hp d hpd) (UInt32.not_le.mpr hd)
        rw [hcons, List.takeWhile_cons_of_neg hne, List.dropWhile_cons_of_neg hne]
        exact ⟨rfl, rfl⟩

end Encoded

/-! ## Encoded numerals -/

section Numerals

open Numeral

theorem scanFraction_cons {c : Char} {cs : List Char} (h : c ≠ '.') : scanFraction (c :: cs) = (none, c :: cs) := by
  unfold scanFraction
  split
  · rename_i heq
    cases heq
    exact absurd rfl h
  · rfl

theorem scanFraction_encoded (cs : List Char) :
    scanFraction (encoded cs) = ((scanFraction cs).1, encoded (scanFraction cs).2) := by
  cases cs with
  | nil => rfl
  | cons c cs =>
    by_cases hc : c = '.'
    · subst hc
      obtain ⟨htake, hdrop⟩ := takeWhile_encoded (fun _ => ascii_of_isDigit) cs
      rw [encoded_cons_of_ascii (by decide)]
      show (some ((encoded cs).takeWhile Char.isDigit), (encoded cs).dropWhile Char.isDigit) = _
      rw [htake, hdrop]
      rfl
    · rw [scanFraction_cons hc]
      rcases encoded_cons c cs with ⟨-, hcons⟩ | ⟨-, d, tail, hcons, hd⟩
      · rw [hcons, scanFraction_cons hc]
      · rw [hcons, scanFraction_cons (by rintro rfl; exact absurd hd (by decide))]

theorem scanSign_encoded (cs : List Char) : scanSign (encoded cs) = ((scanSign cs).1, encoded (scanSign cs).2) := by
  cases cs with
  | nil => rfl
  | cons c cs =>
    rcases encoded_cons c cs with ⟨hascii, hcons⟩ | ⟨hlt, d, tail, hcons, hd⟩
    · rw [hcons]
      unfold scanSign
      dsimp only
      split
      · rfl
      · rw [hcons]
    · have hne : ∀ e : Char, 127 < e.val → ¬ (e = '+' ∨ e = '-') := by
        rintro e he (rfl | rfl) <;> exact absurd he (by decide)
      rw [hcons, scanSign, if_neg (hne d hd), scanSign, if_neg (hne c hlt), hcons]

theorem scanExponent_cons {c : Char} {cs : List Char} (h : ¬ (c = 'e' ∨ c = 'E')) :
    scanExponent (c :: cs) = (none, c :: cs) := by
  unfold scanExponent
  exact if_neg fun hletter => h hletter.1

theorem scanExponent_encoded (cs : List Char) :
    scanExponent (encoded cs) = ((scanExponent cs).1, encoded (scanExponent cs).2) := by
  cases cs with
  | nil => rfl
  | cons c cs =>
    rcases encoded_cons c cs with ⟨hascii, hcons⟩ | ⟨hlt, d, tail, hcons, hd⟩
    · obtain ⟨htake, hdrop⟩ := takeWhile_encoded (fun _ => ascii_of_isDigit) (scanSign cs).2
      rw [hcons]
      unfold scanExponent
      dsimp only
      rw [scanSign_encoded, htake, hdrop]
      dsimp only
      split
      · rfl
      · rw [hcons]
    · have hne : ∀ e : Char, 127 < e.val → ¬ (e = 'e' ∨ e = 'E') := by
        rintro e he (rfl | rfl) <;> exact absurd he (by decide)
      rw [hcons, scanExponent_cons (hne d hd), scanExponent_cons (hne c hlt), hcons]

/-- A numeral is the same in octets. -/
theorem scan_encoded (cs : List Char) :
    Numeral.scan (encoded cs) = ((Numeral.scan cs).1, encoded (Numeral.scan cs).2) := by
  obtain ⟨htake, hdrop⟩ := takeWhile_encoded (fun _ => ascii_of_isDigit) cs
  unfold Numeral.scan
  dsimp only
  rw [htake, hdrop, scanFraction_encoded]
  dsimp only
  rw [scanExponent_encoded]

end Numerals

/-! ## Cuts -/

/-- A text may be cut between any two of its characters. -/
theorem cut?_append (before lexeme rest : List Char) :
    cut? (String.ofList (before ++ (lexeme ++ rest))) (size before) (size before + size lexeme) =
      some (String.ofList lexeme) := by
  have hstart : String.Pos.Raw.IsValid (String.ofList (before ++ (lexeme ++ rest))) ⟨size before⟩ :=
    String.Pos.Raw.isValid_iff_exists_append.mpr ⟨String.ofList before, _, String.ofList_append, rfl⟩
  have hstop : String.Pos.Raw.IsValid (String.ofList (before ++ (lexeme ++ rest))) ⟨size before + size lexeme⟩ := by
    refine String.Pos.Raw.isValid_iff_exists_append.mpr ⟨String.ofList (before ++ lexeme), String.ofList rest, ?_, ?_⟩
    · rw [← String.ofList_append, List.append_assoc]
    · rw [← size_append]
      rfl
  rw [cut?, dif_pos ⟨Nat.le_add_right _ _, hstart, hstop⟩, Option.some_inj, ← String.toByteArray_inj]
  show (String.ofList (before ++ (lexeme ++ rest))).toByteArray.extract (size before) (size before + size lexeme) = _
  rw [String.ofList_append, String.ofList_append, String.toByteArray_append, String.toByteArray_append]
  have hskip := ByteArray.extract_append_size_add' (a := (String.ofList before).toByteArray)
    (b := (String.ofList lexeme).toByteArray ++ (String.ofList rest).toByteArray) (i := 0) (j := size lexeme)
    (k := size before) rfl
  rw [Nat.add_zero] at hskip
  rw [hskip]
  exact ByteArray.extract_append_eq_left (i := size lexeme) rfl

/-! ## The two scans -/

section Scans

variable {c : Char} {cs : List Char} {source : String} {position : Nat} {kind : Kind}

theorem scanOctets?_blank (h : isBlank c = true) :
    scanOctets? source position (c :: cs) = scanOctets? source (position + 1) cs := by
  rw [scanOctets?, if_pos h]

theorem scanOctets?_sign (h : Kind.ofSign? c = some kind) : scanOctets? source position (c :: cs) =
    (scanOctets? source (position + 1) cs).map (Except.map (⟨kind, position⟩ :: ·)) := by
  obtain ⟨⟨hblank, -⟩, -⟩ := isSign_of_ofSign? h
  rw [scanOctets?, hblank, if_neg Bool.false_ne_true, h]

theorem scanOctets?_number (hblank : ¬ isBlank c = true) (hsign : Kind.ofSign? c = none) (h : StartsNumeral c) :
    scanOctets? source position (c :: cs) =
      (cut? source position (position + (Numeral.scan (c :: cs)).1.text.length)).bind fun text =>
        match (Numeral.scan text.toList).1.value? with
        | none => some (.error (.invalidNumber text position))
        | some value => (scanOctets? source (position + (Numeral.scan (c :: cs)).1.text.length)
            (Numeral.scan (c :: cs)).2).map (Except.map (⟨.number value, position⟩ :: ·)) := by
  rw [scanOctets?, if_neg hblank, hsign]
  dsimp only
  rw [if_pos h]
  rfl

theorem scanOctets?_word (hblank : ¬ isBlank c = true) (hsign : Kind.ofSign? c = none) (hnumeral : ¬ StartsNumeral c)
    (h : startsWord c = true) : scanOctets? source position (c :: cs) =
      (cut? source position (position + (c :: cs.takeWhile continuesWord).length)).bind fun word =>
        (scanOctets? source (position + (c :: cs.takeWhile continuesWord).length)
          (cs.dropWhile continuesWord)).map (Except.map (⟨.word word, position⟩ :: ·)) := by
  rw [scanOctets?, if_neg hblank, hsign]
  dsimp only
  rw [if_neg hnumeral, if_pos h]
  rfl

theorem scanOctets?_stray (hblank : ¬ isBlank c = true) (hsign : Kind.ofSign? c = none) (hnumeral : ¬ StartsNumeral c)
    (hword : ¬ startsWord c = true) : scanOctets? source position (c :: cs) =
      (cut? source position source.utf8ByteSize).bind fun rest =>
        some (.error (.unexpectedChar (rest.toList.headD c) position)) := by
  rw [scanOctets?, if_neg hblank, hsign]
  dsimp only
  rw [if_neg hnumeral, if_neg hword]
  rfl

/-- Nothing but an ASCII character is scanned. -/
theorem stray_of_lt (h : 127 < c.val) :
    ¬ isBlank c = true ∧ Kind.ofSign? c = none ∧ ¬ StartsNumeral c ∧ ¬ startsWord c = true := by
  have hnot : ¬ c.val ≤ 127 := UInt32.not_le.mpr h
  refine ⟨fun hc => hnot (ascii_of_isBlank hc), ?_, ?_, fun hc => ?_⟩
  · cases hsign : Kind.ofSign? c with
    | none => rfl
    | some kind => exact absurd (isSign_of_ofSign? hsign).2 hnot
  · rintro (hc | rfl)
    · exact hnot (ascii_of_isDigit hc)
    · exact hnot (by decide)
  · exact hnot (ascii_of_continuesWord (continuesWord_of_startsWord hc))

theorem ofSign?_eq_none (h : startsWord c = true ∨ StartsNumeral c) : Kind.ofSign? c = none := by
  cases hsign : Kind.ofSign? c with
  | none => rfl
  | some kind =>
    obtain ⟨⟨-, hword, hnumeral, -⟩, -⟩ := isSign_of_ofSign? hsign
    rcases h with h | h
    · rw [hword] at h
      cases h
    · exact absurd h hnumeral

theorem not_startsNumeral (h : startsWord c = true) : ¬ StartsNumeral c := by
  rintro (hdigit | rfl)
  · have h9 : c.val ≤ '9'.val := of_decide_eq_true (Bool.and_eq_true_iff.mp hdigit).2
    rcases Bool.or_eq_true_iff.mp h with h | h
    · rcases Bool.or_eq_true_iff.mp h with h | h
      · have hA : 'A'.val ≤ c.val := (of_decide_eq_true h).1
        exact absurd (UInt32.le_trans hA h9) (by decide)
      · have ha : 'a'.val ≤ c.val := of_decide_eq_true (Bool.and_eq_true_iff.mp h).1
        exact absurd (UInt32.le_trans ha h9) (by decide)
    · cases beq_iff_eq.mp h
      exact absurd h9 (by decide)
  · exact absurd h (by decide)

theorem map_cons_eq_bind (token : Token) (x : Except Fault (List Token)) :
    x.map (token :: ·) = x >>= fun tokens => .ok (token :: tokens) := by
  cases x <;> rfl

/-- The scan by octets at some place of the text is the scan by characters. -/
def Agrees (source : String) (offset : Nat) (after : List Char) : Prop :=
  ∀ before : List Char, source = String.ofList (before ++ after) → offset = size before →
    scanOctets? source offset (encoded after) = some (scanFrom offset after)

section Places

variable {lexeme rest before : List Char} {offset : Nat}

/-- A lexeme is cut out as it stands in the text. -/
theorem cut?_lexeme (hascii : ∀ d ∈ lexeme, d.val ≤ 127) (hsource : source = String.ofList (before ++ (lexeme ++ rest)))
    (hoffset : offset = size before) : cut? source offset (offset + lexeme.length) = some (String.ofList lexeme) := by
  rw [hsource, hoffset, ← size_eq_length hascii]
  exact cut?_append before lexeme rest

/-- The scans go on behind a lexeme. -/
theorem Agrees.behind (h : Agrees source (offset + lexeme.length) rest) (hascii : ∀ d ∈ lexeme, d.val ≤ 127)
    (hsource : source = String.ofList (before ++ (lexeme ++ rest))) (hoffset : offset = size before) :
    scanOctets? source (offset + lexeme.length) (encoded rest) = some (scanFrom (offset + lexeme.length) rest) := by
  refine h (before ++ lexeme) (by rw [hsource, List.append_assoc]) ?_
  rw [size_append, hoffset, size_eq_length hascii]

/-- A numeral is cut out and read again. -/
theorem scanOctets?_numeral (hblank : ¬ isBlank c = true) (h : StartsNumeral c)
    (hsource : source = String.ofList (before ++ c :: cs)) (hoffset : offset = size before) :
    scanOctets? source offset (encoded (c :: cs)) = match (Numeral.scan (c :: cs)).1.value? with
      | none => some (.error (.invalidNumber (String.ofList (Numeral.scan (c :: cs)).1.text) offset))
      | some value => (scanOctets? source (offset + (Numeral.scan (c :: cs)).1.text.length)
          (encoded (Numeral.scan (c :: cs)).2)).map (Except.map (⟨.number value, offset⟩ :: ·)) := by
  have hn := Numeral.wellFormed_scan (c :: cs)
  have hscan := scan_encoded (c :: cs)
  obtain ⟨tail, htail⟩ := text_scan_eq_cons h cs
  have hc : c.val ≤ 127 := ascii_of_wellFormed hn (by rw [htail]; exact List.mem_cons_self)
  rw [encoded_cons_of_ascii hc] at hscan ⊢
  rw [← Numeral.text_scan (c :: cs)] at hsource
  rw [scanOctets?_number hblank (ofSign?_eq_none (Or.inr h)) h, hscan,
    cut?_lexeme (fun _ => ascii_of_wellFormed hn) hsource hoffset, Option.bind_some, String.toList_ofList,
    Numeral.scan_text hn]

end Places

/-- Along the whole text both scans do the same. -/
theorem agrees (source : String) (offset : Nat) (after : List Char) : Agrees source offset after := by
  -- The cases are those of the scan by characters; a lexeme is ASCII, so the octets go on where the characters do.
  induction offset, after using scanFrom.induct with
  | case1 offset =>
    intro before _ _
    rw [scanFrom]
    exact scanOctets?.eq_1 source offset
  | case2 offset c cs hblank ih =>
    intro before hsource hoffset
    have hascii : ∀ d ∈ [c], d.val ≤ 127 := by simpa using ascii_of_isBlank hblank
    have hrest := Agrees.behind ih hascii hsource hoffset
    rw [encoded_cons_of_ascii (ascii_of_isBlank hblank), scanOctets?_blank hblank, scanFrom_blank hblank]
    exact hrest
  | case3 offset c cs hblank hword tail ih =>
    intro before hsource hoffset
    have hascii := (longest_word hword cs).1.ascii
    rw [Nat.add_assoc, Nat.add_comm 1, ← List.length_cons] at ih
    rw [← List.takeWhile_append_dropWhile (p := continuesWord) (l := cs), ← List.cons_append] at hsource
    have hrest := Agrees.behind ih hascii hsource hoffset
    obtain ⟨htake, hdrop⟩ := takeWhile_encoded (fun _ => ascii_of_continuesWord) cs
    rw [encoded_cons_of_ascii (hascii c List.mem_cons_self),
      scanOctets?_word hblank (ofSign?_eq_none (Or.inl hword)) (not_startsNumeral hword) hword, htake, hdrop,
      cut?_lexeme hascii hsource hoffset, scanFrom_word hblank hword, ← map_cons_eq_bind]
    exact congrArg (Option.map _) hrest
  | case4 offset c cs hblank hword hnumeral numeral hvalue =>
    intro before hsource hoffset
    rw [scanOctets?_numeral hblank hnumeral hsource hoffset, scanFrom_number hblank hword hnumeral, hvalue]
  | case5 offset c cs hblank hword hnumeral numeral value hvalue ih =>
    intro before hsource hoffset
    rw [scanOctets?_numeral hblank hnumeral hsource hoffset, scanFrom_number hblank hword hnumeral, hvalue]
    rw [← Numeral.text_scan (c :: cs)] at hsource
    have hrest := Agrees.behind ih (fun _ => ascii_of_wellFormed (Numeral.wellFormed_scan _)) hsource hoffset
    dsimp only
    rw [← map_cons_eq_bind]
    exact congrArg (Option.map _) hrest
  | case6 offset c cs hblank hword hnumeral hsign =>
    intro before hsource hoffset
    have hcut : cut? source offset source.utf8ByteSize = some (String.ofList (c :: cs)) := by
      have hcut := cut?_append before (c :: cs) []
      rw [List.append_nil, ← hsource, ← size_append, ← hoffset] at hcut
      rw [← hcut, hsource]
      rfl
    rw [scanFrom_stray hblank hword hnumeral hsign]
    rcases encoded_cons c cs with ⟨-, hcons⟩ | ⟨-, d, tail, hcons, hd⟩
    · rw [hcons, scanOctets?_stray hblank hsign hnumeral hword, hcut, Option.bind_some, String.toList_ofList]
      rfl
    · obtain ⟨hblank', hsign', hnumeral', hword'⟩ := stray_of_lt hd
      rw [hcons, scanOctets?_stray hblank' hsign' hnumeral' hword', hcut, Option.bind_some, String.toList_ofList]
      rfl
  | case7 offset c cs hblank hword hnumeral kind hsign ih =>
    intro before hsource hoffset
    have hc := (isSign_of_ofSign? hsign).2
    have hascii : ∀ d ∈ [c], d.val ≤ 127 := by simpa using hc
    have hrest := Agrees.behind ih hascii hsource hoffset
    rw [encoded_cons_of_ascii hc, scanOctets?_sign hsign, scanFrom_sign hsign, ← map_cons_eq_bind]
    exact congrArg (Option.map _) hrest

/-- **A scan by octets never cuts a text inside a character**, and its result is that of the scan by characters. -/
theorem scanOctets?_eq (source : String) : scanOctets? source 0 (octets source) = some (scan source) := by
  have hagrees := agrees (String.ofList source.toList) 0 source.toList [] rfl rfl
  rwa [← octets_ofList, String.ofList_toList] at hagrees

/-- **What a scan says about a text.** It cuts the text between characters only. Tokens stand one behind the other, are
the longest of their sort, and make up the text with blanks around them; a fault is where a text that scans ends and no
token starts. -/
theorem scan_exact (source : String) :
    scanOctets? source 0 (octets source) = some (scan source) ∧
      match scan source with
      | .ok tokens => tokens.Pairwise (·.position < ·.position) ∧ Layout 0 source.toList tokens
      | .error fault => ∃ before rest : String, source = before ++ rest ∧ (∃ tokens, scan before = .ok tokens) ∧
          BreaksOff before.utf8ByteSize rest.toList fault := by
  refine ⟨scanOctets?_eq source, ?_⟩
  cases hscan : scan source with
  | ok tokens =>
    have hlayout := layout_of_scanFrom tokens hscan
    exact ⟨hlayout.pairwise, hlayout⟩
  | error fault =>
    obtain ⟨before, rest, hsource, htokens, hbreaks⟩ := faultAt_of_scanFrom hscan
    refine ⟨String.ofList before, String.ofList rest, ?_, ?_, ?_⟩
    · rw [← String.ofList_append, ← hsource, String.ofList_toList]
    · rwa [scan, String.toList_ofList]
    · rwa [String.toList_ofList, ← Nat.zero_add (String.ofList before).utf8ByteSize]

end Scans

end Token
end ParetoSweep
