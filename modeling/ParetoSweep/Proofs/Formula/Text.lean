import ParetoSweep.Formula.Token
import ParetoSweep.Proofs.Bind

/-!
# Texts of tokens

A text `Writes` tokens if it is scanned as these, wherever it stands in front of a text that does not go on with a word.
Texts are put together from signs and words (`Writes.sign`, `writes_word`, `Writes.append`).
-/

namespace ParetoSweep
namespace Token

/-- A text is scanned as tokens of the given kinds, at any offset. -/
def Spells (cs : List Char) (ks : List Kind) : Prop :=
  ∀ offset, ∃ tokens, scanFrom offset cs = .ok tokens ∧ tokens.map kind = ks

/-- A text does not go on with a word. -/
def Breaks (cs : List Char) : Prop := ∀ c ∈ cs.head?, continuesWord c = false

theorem breaks_cons {c : Char} (h : continuesWord c = false) (cs : List Char) : Breaks (c :: cs) := by
  rintro _ ⟨⟩
  exact h

/-- A text is scanned as the given tokens and then what comes behind it. -/
def Writes (text : List Char) (ks : List Kind) : Prop :=
  ∀ cs ks', Breaks cs → Spells cs ks' → Spells (text ++ cs) (ks ++ ks')

section Writes

variable {text text' : List Char} {ks ks' : List Kind}

theorem spells_nil : Spells [] [] := fun offset => ⟨[], by rw [scanFrom], rfl⟩

/-- One more token in front of a text. -/
theorem Spells.prepend {cs rest : List Char} {k : Kind} (h : Spells rest ks) (width : Nat)
    (hscan : ∀ offset, scanFrom offset cs = scanFrom (offset + width) rest >>= fun tokens =>
      .ok (⟨k, offset⟩ :: tokens)) : Spells cs (k :: ks) := by
  intro offset
  obtain ⟨tokens, htokens, rfl⟩ := h (offset + width)
  exact ⟨⟨k, offset⟩ :: tokens, by rw [hscan, htokens, ok_bind], rfl⟩

/-- A text on its own. -/
theorem Writes.scan (h : Writes text ks) :
    ∃ tokens, Token.scan (String.ofList text) = .ok tokens ∧ tokens.map kind = ks := by
  have hbreaks : Breaks [] := fun _ hc => nomatch hc
  obtain ⟨tokens, hscan, hkinds⟩ := h [] [] hbreaks spells_nil 0
  rw [List.append_nil] at hscan hkinds
  exact ⟨tokens, by rw [Token.scan, String.toList_ofList, hscan], hkinds⟩

/-- One text behind another one. -/
theorem Writes.append (h : Writes text ks) (h' : Writes text' ks') (hbreaks : ∀ cs, Breaks (text' ++ cs)) :
    Writes (text ++ text') (ks ++ ks') := by
  intro cs rest hcs hspells
  rw [List.append_assoc, List.append_assoc]
  exact h _ _ (hbreaks cs) (h' cs rest hcs hspells)

theorem writes_nil : Writes [] [] := fun _ _ _ h => h

/-- A character that is a token. -/
def IsSign (c : Char) (k : Kind) : Prop :=
  isBlank c = false ∧ startsWord c = false ∧ ¬ (c.isDigit = true ∨ c = '.') ∧ Kind.ofSign? c = some k

instance (c : Char) (k : Kind) : Decidable (IsSign c k) := inferInstanceAs (Decidable (_ ∧ _))

/-- A sign in front of a text. -/
theorem Writes.sign {c : Char} {k : Kind} (hc : IsSign c k) (h : Writes text ks) : Writes (c :: text) (k :: ks) := by
  intro cs rest hcs hspells
  obtain ⟨hblank, hword, hdigit, hsign⟩ := hc
  refine (h cs rest hcs hspells).prepend 1 fun offset => ?_
  rw [List.cons_append, scanFrom, hblank, hword, if_neg Bool.false_ne_true, if_neg Bool.false_ne_true, if_neg hdigit,
    hsign]
  rfl

theorem takeWhile_word {tail cs : List Char} (htail : ∀ c ∈ tail, continuesWord c = true) (hcs : Breaks cs) :
    (tail ++ cs).takeWhile continuesWord = tail ∧ (tail ++ cs).dropWhile continuesWord = cs := by
  rw [List.takeWhile_append_of_pos htail, List.dropWhile_append_of_pos htail]
  cases cs with
  | nil => exact ⟨List.append_nil tail, rfl⟩
  | cons c cs =>
    have hc : ¬ continuesWord c = true := by rw [hcs c rfl]; nofun
    rw [List.takeWhile_cons_of_neg hc, List.dropWhile_cons_of_neg hc]
    exact ⟨List.append_nil tail, rfl⟩

/-- A word. -/
theorem writes_word {c : Char} {tail : List Char} (hblank : isBlank c = false) (hword : startsWord c = true)
    (htail : ∀ c ∈ tail, continuesWord c = true) : Writes (c :: tail) [.word (String.ofList (c :: tail))] := by
  intro cs ks hcs hspells
  obtain ⟨htake, hdrop⟩ := takeWhile_word htail hcs
  refine hspells.prepend (1 + tail.length) fun offset => ?_
  rw [List.cons_append, ← Nat.add_assoc, scanFrom, hblank, hword, if_neg Bool.false_ne_true, if_pos rfl, htake, hdrop]
  rfl

end Writes

end Token
end ParetoSweep
