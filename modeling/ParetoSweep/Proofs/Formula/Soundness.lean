import ParetoSweep.Proofs.Formula.Completeness

/-!
# What is read has a derivation

An expression of a given rank reads a phrase whose stratum has at least that rank, or a minus sign with a signed phrase
(`Read`), and it ends where no operator of its rank follows (`Ends`). The chain of operators keeps a phrase of some
stratum in which no operator binds tighter than the next one, so that the next operator may be taken into a phrase of
its own stratum (`chain_sound`). Together with completeness this makes the reader accept just what the grammar derives
(`ofTokens_eq_ok_iff`).
-/

namespace ParetoSweep

open Term

/-! ## Phrases -/

/-- Some tokens are a phrase of a stratum with a given term. -/
def Derives (s : Stratum) (kinds : List Token.Kind) (t : Term) : Prop :=
  ∃ d : Derivation s, d.kinds = kinds ∧ d.term? = some t

/-- A minus sign and a signed phrase. -/
def DerivesMinus (kinds : List Token.Kind) (t : Term) : Prop :=
  ∃ ks ti, kinds = .operator .subtract :: ks ∧ t = .negate ti ∧ Derives .signed ks ti

/-- No operator of a given rank follows. -/
def Ends (rank : Nat) : List Token → Prop
  | ⟨.operator op, _⟩ :: _ => op.rank < rank
  | _ => True

/-- The stratum that an operator belongs to. -/
def Operator.stratum : Operator → Stratum
  | add | subtract => .sum
  | multiply | divide | remainder => .product
  | power => .power

theorem Operator.rank_stratum (op : Operator) : op.rank = op.stratum.rank := by
  cases op <;> rfl

section Phrases

variable {s s' : Stratum} {ks ks' : List Token.Kind} {t t' : Term} {rest : List Token}

theorem Ends.mono {r r' : Nat} (h : Ends r rest) (hr : r ≤ r') : Ends r' rest := by
  rcases rest with _ | ⟨⟨kind, position⟩, rest⟩
  · trivial
  · cases kind with
    | operator op => exact Nat.lt_of_lt_of_le h hr
    | _ => trivial

/-- A phrase is also a phrase of every looser stratum. -/
theorem Derives.relax {s s' : Stratum} (h : Derives s' ks t) (hrank : s.rank ≤ s'.rank) : Derives s ks t := by
  by_cases heq : s = s'
  · exact heq ▸ h
  · have hs : s ≠ .atom := by
      rintro rfl
      cases s' <;> first | exact heq rfl | exact absurd hrank (by decide)
    have hlt : s.rank < s'.rank := by
      refine Nat.lt_of_le_of_ne hrank fun hsame => heq ?_
      cases s <;> cases s' <;> first | rfl | cases hsame
    have hnext := Stratum.rank_next hs
    obtain ⟨d, hd, ht⟩ := Derives.relax (s := s.next) h (by omega)
    exact ⟨.lift hs d, by rw [Derivation.kinds, hd], by rw [Derivation.term?, ht]⟩
termination_by s'.rank - s.rank

theorem Derives.binary (op : Operator) (hl : Derives op.stratum ks t) (hr : Derives op.stratum.next ks' t') :
    Derives op.stratum (ks ++ .operator op :: ks') (.binary op t t') := by
  obtain ⟨dl, hdl, htl⟩ := hl
  obtain ⟨dr, hdr, htr⟩ := hr
  exact ⟨.binary op op.rank_stratum dl dr, by rw [Derivation.kinds, hdl, hdr],
    Derivation.term?_binary.mpr ⟨t, htl, t', htr, rfl⟩⟩

theorem DerivesMinus.derives (h : DerivesMinus ks t) : Derives .signed ks t := by
  obtain ⟨ki, ti, rfl, rfl, d, hd, ht⟩ := h
  exact ⟨.negate d, by rw [Derivation.kinds, hd], Derivation.term?_negate.mpr ⟨ti, ht, rfl⟩⟩

theorem DerivesMinus.power (hl : Derives .power ks t) (hr : DerivesMinus ks' t') :
    Derives .signed (ks ++ .operator .power :: ks') (.binary .power t t') := by
  obtain ⟨db, hdb, htb⟩ := hl
  obtain ⟨ki, ti, rfl, rfl, de, hde, hte⟩ := hr
  exact ⟨.powerNegate db de, by rw [Derivation.kinds, hdb, hde],
    Derivation.term?_powerNegate.mpr ⟨t, htb, ti, hte, rfl⟩⟩

end Phrases

/-! ## Readers -/

/-- An expression of a given rank has been read. -/
def Read (rank : Nat) (tokens : List Token) (t : Term) (rest : List Token) : Prop :=
  ∃ front, tokens = front ++ rest ∧ Ends rank rest ∧
    ((∃ s : Stratum, rank ≤ s.rank ∧ Derives s (front.map Token.kind) t) ∨
      DerivesMinus (front.map Token.kind) t ∧ Ends Operator.negationRank rest)

section Readers

variable {rank room : Nat} {tokens rest : List Token} {t : Term}

/-- Up to the rank of the minus sign, an expression is a phrase of the stratum of its rank. -/
theorem Read.derives (s : Stratum) (h : Read s.rank tokens t rest) (hs : s.rank ≤ Operator.negationRank) :
    ∃ front, tokens = front ++ rest ∧ Ends s.rank rest ∧ Derives s (front.map Token.kind) t := by
  obtain ⟨front, hfront, hends, ⟨s', hrank, hd⟩ | ⟨hminus, -⟩⟩ := h
  · exact ⟨front, hfront, hends, hd.relax hrank⟩
  · exact ⟨front, hfront, hends, hminus.derives.relax hs⟩

/-- The ranks that expressions are asked for: nothing asks for a power without asking for an atom. -/
def Asked (rank : Nat) : Prop := rank ≤ 3 ∨ rank = 5

theorem asked_succ (op : Operator) : Asked (op.rank + 1) := by
  unfold Asked
  cases op <;> decide

/-- What is read as an expression with some room is one. -/
def SoundExpression (room : Nat) : Prop :=
  ∀ rank tokens t rest, Asked rank → outcome (expression room rank tokens) = .ok (t, rest) → Read rank tokens t rest

/-- A chain of operators turns a phrase into a phrase whose stratum has at least the rank of the chain. -/
def SoundChain (room : Nat) : Prop :=
  ∀ rank left tokens t rest, Asked rank → outcome (chain room rank left tokens) = .ok (t, rest) →
    ∀ s ks, Derives s ks left → Ends (s.rank + 1) tokens →
      ∃ front, tokens = front ++ rest ∧ Ends rank rest ∧
        (front = [] ∧ t = left ∨ ∃ s' : Stratum, rank ≤ s'.rank ∧ Derives s' (ks ++ front.map Token.kind) t)

/-- A chain that does not go on. -/
theorem chain_ends {left : Term} (hends : Ends rank tokens) :
    outcome (chain room rank left tokens) = .ok (left, tokens) := by
  rcases tokens with _ | ⟨⟨kind, position⟩, tokens⟩
  · exact outcome_chain_nil
  · cases kind with
    | operator op => exact outcome_chain_of_lt hends
    | _ => exact outcome_chain_of_not_operator (fun _ => nofun)

/-- A chain goes on with an operator of its rank. -/
theorem ends_or_operator (rank : Nat) (tokens : List Token) :
    Ends rank tokens ∨ ∃ op position rest, tokens = ⟨.operator op, position⟩ :: rest ∧ ¬ op.rank < rank := by
  rcases tokens with _ | ⟨⟨kind, position⟩, tokens⟩
  · exact Or.inl trivial
  · cases kind with
    | operator op =>
      by_cases h : op.rank < rank
      · exact Or.inl h
      · exact Or.inr ⟨op, position, tokens, rfl, h⟩
    | _ => exact Or.inl trivial

/-- An operator and its right operand behind a phrase. -/
theorem derives_operator {op : Operator} {left : Term} {ks : List Token.Kind} (hleft : Derives op.stratum ks left)
    (h : Read (op.rank + 1) tokens t rest) (hop : ¬ op.rank < rank) (hrank : Asked rank) :
    ∃ front, tokens = front ++ rest ∧ ∃ s : Stratum, rank ≤ s.rank ∧ Ends (s.rank + 1) rest ∧
      Derives s (ks ++ .operator op :: front.map Token.kind) (.binary op left t) := by
  have hstratum := op.rank_stratum
  have hnext := Stratum.rank_next (Stratum.ne_atom_of_operator hstratum)
  by_cases hpower : op = .power
  · subst hpower
    obtain ⟨front, hfront, hends, ⟨s, hs, hd⟩ | ⟨hminus, hends'⟩⟩ := h
    · exact ⟨front, hfront, .power, Nat.le_of_not_lt hop, hends, hleft.binary .power (hd.relax hs)⟩
    · have hlow : rank ≤ 3 := by
        have : rank ≤ 4 := Nat.le_of_not_lt hop
        rcases hrank with h | h <;> omega
      exact ⟨front, hfront, .signed, hlow, hends'.mono (by decide), hminus.power hleft⟩
  · have hlow : op.stratum.next.rank ≤ Operator.negationRank := by
      cases op <;> first | decide | exact absurd rfl hpower
    rw [show op.rank + 1 = op.stratum.next.rank by omega] at h
    obtain ⟨front, hfront, hends, hd⟩ := h.derives _ hlow
    exact ⟨front, hfront, op.stratum, by omega, hnext ▸ hends, hleft.binary op hd⟩

theorem soundChain_zero : SoundChain 0 := by
  intro rank left tokens t rest _ h s ks hleft hends
  rcases ends_or_operator rank tokens with hstop | ⟨op, position, tail, rfl, hop⟩
  · rw [chain_ends hstop] at h
    cases h
    exact ⟨[], rfl, hstop, Or.inl ⟨rfl, rfl⟩⟩
  · rw [outcome_chain_zero hop] at h
    cases h

theorem soundChain_succ (hexpression : SoundExpression room) (hchain : SoundChain room) : SoundChain (room + 1) := by
  intro rank left tokens t rest hrank h s ks hleft hends
  rcases ends_or_operator rank tokens with hstop | ⟨op, position, tail, rfl, hop⟩
  · rw [chain_ends hstop] at h
    cases h
    exact ⟨[], rfl, hstop, Or.inl ⟨rfl, rfl⟩⟩
  · rw [outcome_chain_succ hop] at h
    obtain ⟨⟨tr, middle⟩, hr, hgo⟩ := bind_eq_ok.mp h
    have hread := hexpression _ _ _ _ (asked_succ op) hr
    have hstratum : op.stratum.rank ≤ s.rank := by
      have := op.rank_stratum
      have : op.rank < s.rank + 1 := hends
      omega
    obtain ⟨fr, rfl, s', hs', hends', hd⟩ := derives_operator (hleft.relax hstratum) hread hop hrank
    obtain ⟨front, rfl, hends'', hresult⟩ := hchain rank _ _ _ _ hrank hgo s' _ hd hends'
    refine ⟨⟨.operator op, position⟩ :: (fr ++ front), by simp, hends'', Or.inr ?_⟩
    rcases hresult with ⟨rfl, rfl⟩ | ⟨s'', hs'', hd'⟩
    · exact ⟨s', hs', by simpa using hd⟩
    · exact ⟨s'', hs'', by simpa using hd'⟩

/-- What a reader of arguments takes is a sum. -/
def SoundSum (read : Reader Term) : Prop :=
  ∀ tokens t rest, outcome (read tokens) = .ok (t, rest) →
    ∃ front, tokens = front ++ rest ∧ Derives .sum (front.map Token.kind) t

/-- Some tokens are arguments with the bracket that ends them. -/
def DerivesAll (kinds : List Token.Kind) (ts : List Term) : Prop :=
  ∃ args, Derivation.argumentKinds args = kinds ∧ Derivation.terms? args = some ts

theorem DerivesAll.nil : DerivesAll [.closing .round] [] :=
  ⟨[], by rw [Derivation.argumentKinds], by rw [Derivation.terms?]⟩

theorem DerivesAll.singleton {ks : List Token.Kind} (h : Derives .sum ks t) :
    DerivesAll (ks ++ [.closing .round]) [t] := by
  obtain ⟨d, hd, ht⟩ := h
  exact ⟨[d], by rw [Derivation.argumentKinds, hd],
    Derivation.terms?_cons.mpr ⟨t, ht, [], by rw [Derivation.terms?], rfl⟩⟩

theorem DerivesAll.cons {ks ks' : List Token.Kind} {ts : List Term} (h : Derives .sum ks t) (hs : DerivesAll ks' ts)
    (hne : ts ≠ []) : DerivesAll (ks ++ .comma :: ks') (t :: ts) := by
  obtain ⟨d, hd, ht⟩ := h
  obtain ⟨args, hargs, hts⟩ := hs
  refine ⟨d :: args, ?_, Derivation.terms?_cons.mpr ⟨t, ht, ts, hts, rfl⟩⟩
  cases args with
  | nil =>
    cases hts
    exact absurd rfl hne
  | cons second others => rw [Derivation.argumentKinds_cons, hd, hargs]

/-- Arguments that are read are sums between commas. -/
theorem arguments_sound {read : Reader Term} {tokens rest : List Token} (hread : SoundSum read) {opened : Nat}
    {ts : List Term} (h : outcome (arguments read opened tokens) = .ok (ts, rest)) :
    ts ≠ [] ∧ ∃ front, tokens = front ++ rest ∧ DerivesAll (front.map Token.kind) ts := by
  rw [outcome_arguments] at h
  obtain ⟨⟨t, middle⟩, hfirst, hgo⟩ := bind_eq_ok.mp h
  obtain ⟨front, htokens, hd⟩ := hread _ _ _ hfirst
  rcases middle with _ | ⟨⟨kind, position⟩, tail⟩
  · cases hgo
  · cases kind with
    | comma =>
      obtain ⟨⟨ts', rest'⟩, hothers, hpure⟩ := bind_eq_ok.mp hgo
      cases hpure
      have hshorter : tail.length < tokens.length := by
        rw [htokens, List.length_append, List.length_cons]
        omega
      obtain ⟨hne, fo, rfl, hds⟩ := arguments_sound hread hothers
      refine ⟨List.cons_ne_nil t ts', front ++ ⟨.comma, position⟩ :: fo, by simpa using htokens, ?_⟩
      simpa using DerivesAll.cons hd hds hne
    | closing shape =>
      cases shape with
      | square => cases hgo
      | round =>
        cases hgo
        refine ⟨List.cons_ne_nil t [], front ++ [⟨.closing .round, position⟩], by simpa using htokens, ?_⟩
        simpa using DerivesAll.singleton hd
    | _ => cases hgo
termination_by tokens.length

theorem callArguments_sound {read : Reader Term} (hread : SoundSum read) {opened : Nat} {ts : List Term}
    (h : outcome (callArguments read opened tokens) = .ok (ts, rest)) :
    ∃ front, tokens = front ++ rest ∧ DerivesAll (front.map Token.kind) ts := by
  by_cases hclosing : ∃ p tail, tokens = ⟨.closing .round, p⟩ :: tail
  · obtain ⟨p, tail, rfl⟩ := hclosing
    rw [outcome_callArguments_nil] at h
    cases h
    exact ⟨[⟨.closing .round, p⟩], rfl, DerivesAll.nil⟩
  · rw [outcome_callArguments (fun p tail htokens => hclosing ⟨p, tail, htokens⟩)] at h
    exact (arguments_sound hread h).2

theorem closing_sound {shape : Bracket} {opened : Nat} (h : outcome (closing shape opened tokens) = .ok ((), rest)) :
    ∃ position, tokens = ⟨.closing shape, position⟩ :: rest := by
  rcases tokens with _ | ⟨⟨kind, position⟩, tail⟩
  · cases h
  · cases kind with
    | closing found =>
      rw [outcome_closing] at h
      split at h
      · rename_i heq
        cases h
        exact ⟨position, by rw [heq]⟩
      · cases h
    | _ => cases h

theorem call_sound (hsum : SoundSum (expression room 1)) {word : String} {position opened : Nat}
    (h : outcome (operand (expression room) (⟨.word word, position⟩ :: ⟨.opening .round, opened⟩ :: tokens)) =
      .ok (t, rest)) :
    ∃ front, tokens = front ++ rest ∧ Derives .atom (.word word :: .opening .round :: front.map Token.kind) t := by
  rw [outcome_operand_call] at h
  cases hfunction : Builtin.ofName? word with
  | none =>
    rw [hfunction] at h
    cases h
  | some function =>
    rw [hfunction] at h
    obtain ⟨⟨ts, middle⟩, hargs, hpure⟩ := bind_eq_ok.mp h
    obtain ⟨front, rfl, args, hkinds, hts⟩ := callArguments_sound hsum hargs
    dsimp only at hpure
    split at hpure
    · rename_i hadmits
      cases hpure
      exact ⟨front, rfl, .call word args, by rw [Derivation.kinds, hkinds],
        Derivation.term?_call.mpr ⟨function, hfunction, ts, hts, hadmits, rfl⟩⟩
    · cases hpure

theorem bracket_sound (hsum : SoundSum (expression room 1)) {shape : Bracket} {position : Nat}
    (h : outcome (operand (expression room) (⟨.opening shape, position⟩ :: tokens)) = .ok (t, rest)) :
    ∃ front, tokens = front ++ rest ∧ Derives .atom (.opening shape :: front.map Token.kind) t := by
  rw [outcome_operand_bracket] at h
  obtain ⟨⟨ti, middle⟩, hinner, hgo⟩ := bind_eq_ok.mp h
  obtain ⟨⟨_, middle'⟩, hclose, hpure⟩ := bind_eq_ok.mp hgo
  cases hpure
  obtain ⟨front, rfl, d, hkinds, hterm⟩ := hsum _ _ _ hinner
  obtain ⟨position', hmiddle⟩ := closing_sound hclose
  refine ⟨front ++ [⟨.closing shape, position'⟩], ?_, .bracket shape d, ?_, ?_⟩
  · rw [show middle = _ from hmiddle]
    simp
  · simp [Derivation.kinds, hkinds]
  · rw [Derivation.term?, hterm]

/-- An operand is an atom, or a minus sign with a signed phrase. -/
theorem operand_sound (hexpression : SoundExpression room)
    (h : outcome (operand (expression room) tokens) = .ok (t, rest)) :
    ∃ front, tokens = front ++ rest ∧ (Derives .atom (front.map Token.kind) t ∨
      DerivesMinus (front.map Token.kind) t ∧ Ends Operator.negationRank rest) := by
  have hsum : SoundSum (expression room 1) := by
    intro tokens t rest h
    obtain ⟨front, hfront, -, hd⟩ := (hexpression 1 _ _ _ (Or.inl (by decide)) h).derives .sum (by decide)
    exact ⟨front, hfront, hd⟩
  rcases tokens with _ | ⟨⟨kind, position⟩, tail⟩
  · cases h
  · cases kind with
    | number x =>
      cases h
      exact ⟨[⟨.number x, position⟩], rfl, Or.inl ⟨.number x, by rw [Derivation.kinds]; rfl, by rw [Derivation.term?]⟩⟩
    | operator op =>
      by_cases hop : op = .subtract
      · subst hop
        rw [outcome_operand_negate] at h
        obtain ⟨⟨ti, middle⟩, hinner, hpure⟩ := bind_eq_ok.mp h
        cases hpure
        obtain ⟨fi, rfl, hends, hd⟩ := (hexpression _ _ _ _ (Or.inl (by decide)) hinner).derives .signed (Nat.le_refl _)
        exact ⟨⟨.operator .subtract, position⟩ :: fi, rfl, Or.inr ⟨⟨_, ti, rfl, rfl, hd⟩, hends⟩⟩
      · rw [outcome_operand_operator hop] at h
        cases h
    | word word =>
      by_cases hcall : ∃ p tail', tail = ⟨.opening .round, p⟩ :: tail'
      · obtain ⟨opened, tail', rfl⟩ := hcall
        obtain ⟨front, rfl, hd⟩ := call_sound hsum h
        exact ⟨⟨.word word, position⟩ :: ⟨.opening .round, opened⟩ :: front, rfl, Or.inl hd⟩
      · rw [outcome_operand_name word (fun p tail' htail => hcall ⟨p, tail', htail⟩)] at h
        cases h
        refine ⟨[⟨.word word, position⟩], rfl, Or.inl ⟨.name word, ?_, by rw [Derivation.term?]⟩⟩
        rw [Derivation.kinds]
        rfl
    | opening shape =>
      obtain ⟨front, rfl, hd⟩ := bracket_sound hsum h
      exact ⟨⟨.opening shape, position⟩ :: front, rfl, Or.inl hd⟩
    | closing shape => cases h
    | comma => cases h

theorem soundExpression_succ (hexpression : SoundExpression room) (hchain : SoundChain room) :
    SoundExpression (room + 1) := by
  intro rank tokens t rest hrank h
  rw [outcome_expression_succ] at h
  obtain ⟨⟨first, middle⟩, hfirst, hgo⟩ := bind_eq_ok.mp h
  obtain ⟨fo, rfl, hoperand⟩ := operand_sound hexpression hfirst
  rcases hoperand with hatom | ⟨hminus, hends⟩
  · have hany : Ends (Stratum.atom.rank + 1) middle := by
      rcases middle with _ | ⟨⟨kind, position⟩, middle⟩
      · trivial
      · cases kind with
        | operator op =>
          show op.rank < 6
          cases op <;> decide
        | _ => trivial
    obtain ⟨front, rfl, hends, hresult⟩ := hchain rank _ _ _ _ hrank hgo .atom _ hatom hany
    refine ⟨fo ++ front, by simp, hends, Or.inl ?_⟩
    rcases hresult with ⟨rfl, rfl⟩ | ⟨s, hs, hd⟩
    · have hrank' : rank ≤ 5 := by rcases hrank with h | h <;> omega
      exact ⟨.atom, hrank', by simpa using hatom⟩
    · exact ⟨s, hs, by simpa using hd⟩
  · obtain ⟨front, rfl, hends', hresult⟩ :=
      hchain rank _ _ _ _ hrank hgo .signed _ hminus.derives (hends.mono (by decide))
    rcases hresult with ⟨rfl, rfl⟩ | ⟨s, hs, hd⟩
    · exact ⟨fo, by simp, hends', Or.inr ⟨hminus, hends⟩⟩
    · exact ⟨fo ++ front, by simp, hends', Or.inl ⟨s, hs, by simpa using hd⟩⟩

theorem sound : (room : Nat) → SoundExpression room ∧ SoundChain room
  | 0 => ⟨fun _ _ _ _ _ h => (nomatch h), soundChain_zero⟩
  | room + 1 =>
    have ⟨hexpression, hchain⟩ := sound room
    ⟨soundExpression_succ hexpression hchain, soundChain_succ hexpression hchain⟩

end Readers

/-! ## Whole formulas -/

section Whole

variable {tokens : List Token} {t : Term}

theorem ofTokens_of_ne_nil (h : tokens ≠ []) : ofTokens tokens =
    outcome (expression depthLimit 1 tokens) >>= fun whole =>
      match whole.2 with
      | [] => .ok whole.1
      | token :: _ => .error (unexpected token) := by
  rw [ofTokens, if_neg (by simpa using h)]
  cases expression depthLimit 1 tokens with
  | error fault => rfl
  | ok whole => rfl

/-- A derivation of all tokens is read as its term if there is room for it. -/
theorem outcome_whole {d : Derivation .sum} (hkinds : d.kinds = tokens.map Token.kind) (hterm : d.term? = some t)
    (room : Nat) : outcome (expression room 1 tokens) = if d.need ≤ room then .ok (t, []) else .error .tooDeep := by
  have hread := d.reads t hterm tokens [] room 1 hkinds.symm (Nat.le_refl _) trivial
  rw [List.append_nil] at hread
  rw [hread, outcome_chain_nil]

/-- What is read without leftovers has a derivation. -/
theorem derives_of_outcome {room : Nat} (h : outcome (expression room 1 tokens) = .ok (t, [])) :
    Derives .sum (tokens.map Token.kind) t := by
  obtain ⟨front, rfl, -, hd⟩ := ((sound room).1 1 _ _ _ (Or.inl (by decide)) h).derives .sum (by decide)
  simpa using hd

theorem ofTokens_of_derivation {d : Derivation .sum} (hkinds : d.kinds = tokens.map Token.kind)
    (hterm : d.term? = some t) : ofTokens tokens = if d.need ≤ depthLimit then .ok t else .error .tooDeep := by
  have hne : tokens ≠ [] := by
    rintro rfl
    obtain ⟨k, ks, hk, -⟩ := d.kinds_eq_cons
    cases hk.symm.trans hkinds
  rw [ofTokens_of_ne_nil hne, outcome_whole hkinds hterm]
  split <;> rfl

/-- No two terms are derived from the same tokens. -/
theorem Derives.unique {ks : List Token.Kind} {t t' : Term} (h : Derives .sum ks t) (h' : Derives .sum ks t') :
    t = t' := by
  obtain ⟨d, hd, ht⟩ := h
  obtain ⟨d', hd', ht'⟩ := h'
  have htokens : (ks.map fun k => (⟨k, 0⟩ : Token)).map Token.kind = ks := by
    rw [List.map_map]
    exact List.map_id ks
  have hread := outcome_whole (hd.trans htokens.symm) ht (max d.need d'.need)
  rw [outcome_whole (hd'.trans htokens.symm) ht' (max d.need d'.need), if_pos (Nat.le_max_right ..),
    if_pos (Nat.le_max_left ..)] at hread
  cases hread
  rfl

/-- What is read as a whole has a derivation. -/
theorem derives_of_ofTokens (h : ofTokens tokens = .ok t) : Derives .sum (tokens.map Token.kind) t := by
  have hne : tokens ≠ [] := by
    rintro rfl
    cases h
  rw [ofTokens_of_ne_nil hne] at h
  obtain ⟨⟨t', rest⟩, hread, hwhole⟩ := bind_eq_ok.mp h
  cases rest with
  | nil =>
    cases hwhole
    exact derives_of_outcome hread
  | cons token rest => cases hwhole

/-- **Unless it is too deep, a formula is read as a term iff the grammar derives it with this term.** No two terms are
derived from the same tokens, whether these are too deep or not. -/
theorem ofTokens_eq_ok_iff :
    (∀ tokens, ofTokens tokens ≠ .error .tooDeep →
        ∀ t, ofTokens tokens = .ok t ↔ Derives .sum (tokens.map Token.kind) t) ∧
      ∀ ks t t', Derives .sum ks t → Derives .sum ks t' → t = t' := by
  refine ⟨?_, fun _ _ _ => Derives.unique⟩
  intro tokens hdepth t
  refine ⟨derives_of_ofTokens, ?_⟩
  rintro ⟨d, hkinds, hterm⟩
  have hread := ofTokens_of_derivation hkinds hterm
  split at hread
  · exact hread
  · exact absurd hread hdepth

/-- `x^-y^x` is read as the power of a negated power, which is how the grammar derives it. -/
theorem derives_power_negate_power :
    let tokens : List Token := [⟨.word "x", 0⟩, ⟨.operator .power, 1⟩, ⟨.operator .subtract, 2⟩, ⟨.word "y", 3⟩,
      ⟨.operator .power, 4⟩, ⟨.word "x", 5⟩]
    let t : Term := .binary .power (.named "x") (.negate (.binary .power (.named "y") (.named "x")))
    ofTokens tokens = .ok t ∧ Derives .sum (tokens.map Token.kind) t := by
  intro tokens t
  have hok : ofTokens tokens = .ok t := rfl
  have hdepth : ofTokens tokens ≠ .error .tooDeep := by
    rw [hok]
    nofun
  exact ⟨hok, (ofTokens_eq_ok_iff.1 tokens hdepth t).mp hok⟩

end Whole
end ParetoSweep
