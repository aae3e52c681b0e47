import ParetoSweep.Proofs.Formula.Derivation
import ParetoSweep.Proofs.Formula.Outcome

/-!
# Derivations are read

Where the tokens of a derivation are read as an expression, what is left of the reading is the chain of operators behind
the derivation's term if there is enough room for it, and otherwise the formula is too deep (`Reads`). This holds of
every derivation whose calls are right (`reads`), by induction on it: one lemma for each rule of the grammar.
-/

namespace ParetoSweep

open Term

/-! ## What may follow -/

/-- A phrase may be followed by operators up to a rank, by a comma and by a closing bracket. -/
def Follows (rank : Nat) : List Token → Prop
  | [] => True
  | ⟨.operator op, _⟩ :: _ => op.rank ≤ rank
  | ⟨.comma, _⟩ :: _ => True
  | ⟨.closing _, _⟩ :: _ => True
  | _ => False

section Follows

variable {r rank room : Nat} {rest : List Token} {left : Term}

theorem Follows.mono {r' : Nat} (h : Follows r rest) (hr : r ≤ r') : Follows r' rest := by
  rcases rest with _ | ⟨⟨kind, position⟩, rest⟩
  · trivial
  · cases kind with
    | operator op => exact Nat.le_trans h hr
    | _ => exact h

/-- No operator has the rank of the minus sign. -/
theorem Follows.of_negationRank (h : Follows Operator.negationRank rest) : Follows 2 rest := by
  rcases rest with _ | ⟨⟨kind, position⟩, rest⟩
  · trivial
  · cases kind with
    | operator op =>
      have hop : op.rank ≤ 3 := h
      show op.rank ≤ 2
      cases op <;> revert hop <;> decide
    | _ => exact h

theorem Follows.ne_opening (h : Follows r rest) (p : Nat) (tail : List Token) :
    rest ≠ ⟨.opening .round, p⟩ :: tail := by
  rintro rfl
  exact h

/-- A chain ends before operators of lower rank. -/
theorem outcome_chain_of_follows (h : Follows r rest) (hr : r < rank) :
    outcome (chain room rank left rest) = .ok (left, rest) := by
  rcases rest with _ | ⟨⟨kind, position⟩, rest⟩
  · exact outcome_chain_nil
  · cases kind with
    | operator op => exact outcome_chain_of_lt (Nat.lt_of_le_of_lt h hr)
    | _ => exact outcome_chain_of_not_operator (fun _ => nofun)

end Follows

namespace Stratum

variable {s : Stratum}

theorem rank_next (h : s ≠ .atom) : s.next.rank = s.rank + 1 := by
  cases s <;> first | rfl | exact absurd rfl h

theorem ne_atom_of_operator {op : Operator} (h : op.rank = s.rank) : s ≠ .atom := by
  rintro rfl
  cases op <;> cases h

end Stratum

namespace Derivation

/-! ## One rule at a time -/

/-- The tokens of a derivation are read as its term. -/
def Reads {s : Stratum} (d : Derivation s) : Prop :=
  ∀ t, d.term? = some t → ∀ front rest room rank, front.map Token.kind = d.kinds → rank ≤ s.rank →
    Follows s.rank rest → outcome (expression room rank (front ++ rest)) =
      if d.need ≤ room then outcome (chain (room - 1 - d.spine) rank t rest) else .error .tooDeep

/-- The tokens of arguments are read as their terms. -/
def ReadsAll (args : List (Derivation .sum)) : Prop :=
  args ≠ [] → ∀ ts, terms? args = some ts → ∀ front rest room opened, front.map Token.kind = argumentKinds args →
    outcome (arguments (expression room 1) opened (front ++ rest)) =
      if argumentNeed args ≤ room then .ok (ts, rest) else .error .tooDeep

section Rules

variable {s : Stratum}

theorem reads_lift {inner : Derivation s.next} (h : s ≠ .atom) (hinner : inner.Reads) : (lift h inner).Reads := by
  intro t ht front rest room rank hfront hrank hrest
  have hnext := Stratum.rank_next h
  exact hinner t ht front rest room rank hfront (by omega) (hrest.mono (by omega))

theorem reads_binary {op : Operator} {left : Derivation s} {right : Derivation s.next} (h : op.rank = s.rank)
    (hleft : left.Reads) (hright : right.Reads) : (binary op h left right).Reads := by
  intro t ht front rest room rank hfront hrank hrest
  obtain ⟨tl, htl, tr, htr, rfl⟩ := term?_binary.mp ht
  obtain ⟨fl, tail, rfl, hfl, htail⟩ := List.map_eq_append_iff.mp hfront
  obtain ⟨⟨kind, position⟩, fr, rfl, rfl, hfr⟩ := List.map_eq_cons_iff.mp htail
  have hnext := Stratum.rank_next (Stratum.ne_atom_of_operator h)
  have hop : ¬ op.rank < rank := by omega
  have hfollows : Follows s.rank (⟨.operator op, position⟩ :: (fr ++ rest)) := Nat.le_of_eq h
  rw [List.append_assoc, List.cons_append, hleft tl htl fl _ room rank hfl hrank hfollows]
  have hneed : (binary op h left right).need = max left.need (left.spine + 2 + right.need) := by rw [need]
  have hspine : (binary op h left right).spine = left.spine + 1 := by rw [spine]
  by_cases hl : left.need ≤ room
  · rw [if_pos hl]
    cases hroom : room - 1 - left.spine with
    | zero => rw [outcome_chain_zero hop, if_neg (by omega)]
    | succ k =>
      rw [outcome_chain_succ hop, hright tr htr fr rest k (op.rank + 1) hfr (by omega) (hrest.mono (by omega))]
      by_cases hr : right.need ≤ k
      · rw [if_pos hr, outcome_chain_of_follows hrest (by omega), if_pos (by omega), ok_bind]
        rw [show room - 1 - (binary op h left right).spine = k by omega]
      · rw [if_neg hr, if_neg (by omega), error_bind]
  · rw [if_neg hl, if_neg (by omega)]

/-- A minus sign is read at any rank. -/
theorem outcome_negate {inner : Derivation .signed} (hinner : inner.Reads) {t : Term} (ht : inner.term? = some t)
    {front rest : List Token} (hfront : front.map Token.kind = inner.kinds) (hrest : Follows Operator.negationRank rest)
    (position room rank : Nat) : outcome (expression room rank (⟨.operator .subtract, position⟩ :: (front ++ rest))) =
      if inner.need + 1 ≤ room then outcome (chain (room - 1) rank (.negate t) rest) else .error .tooDeep := by
  cases room with
  | zero => rw [outcome_expression_zero, if_neg (by omega)]
  | succ room =>
    rw [outcome_expression_succ, outcome_operand_negate,
      hinner t ht front rest room Operator.negationRank hfront (Nat.le_refl _) hrest]
    by_cases hneed : inner.need ≤ room
    · rw [if_pos hneed, if_pos (by omega), outcome_chain_of_follows hrest.of_negationRank (by decide)]
      simp only [ok_bind, Nat.add_sub_cancel]
    · simp only [if_neg hneed, if_neg (show ¬ inner.need + 1 ≤ room + 1 by omega), error_bind]

theorem reads_negate {inner : Derivation .signed} (hinner : inner.Reads) : (negate inner).Reads := by
  intro t ht front rest room rank hfront hrank hrest
  obtain ⟨ti, hti, rfl⟩ := term?_negate.mp ht
  obtain ⟨⟨kind, position⟩, fi, rfl, rfl, hfi⟩ := List.map_eq_cons_iff.mp hfront
  exact outcome_negate hinner hti hfi hrest position room rank

theorem reads_powerNegate {base : Derivation .power} {exponent : Derivation .signed} (hbase : base.Reads)
    (hexponent : exponent.Reads) : (powerNegate base exponent).Reads := by
  intro t ht front rest room rank hfront hrank hrest
  obtain ⟨tb, htb, te, hte, rfl⟩ := term?_powerNegate.mp ht
  obtain ⟨fb, tail, rfl, hfb, htail⟩ := List.map_eq_append_iff.mp hfront
  obtain ⟨⟨kind, position⟩, tail', rfl, rfl, htail'⟩ := List.map_eq_cons_iff.mp htail
  obtain ⟨⟨kind', position'⟩, fe, rfl, rfl, hfe⟩ := List.map_eq_cons_iff.mp htail'
  have hop : ¬ Operator.power.rank < rank := Nat.not_lt.mpr (Nat.le_trans hrank (by decide))
  have hfollows : Follows 4 (⟨.operator .power, position⟩ :: ⟨.operator .subtract, position'⟩ :: (fe ++ rest)) :=
    Nat.le_refl 4
  rw [List.append_assoc, List.cons_append, List.cons_append,
    hbase tb htb fb _ room rank hfb (Nat.le_trans hrank (by decide)) hfollows]
  have hneed : (powerNegate base exponent).need = max base.need (base.spine + 3 + exponent.need) := by rw [need]
  have hspine : (powerNegate base exponent).spine = base.spine + 1 := by rw [spine]
  by_cases hb : base.need ≤ room
  · rw [if_pos hb]
    cases hroom : room - 1 - base.spine with
    | zero => rw [outcome_chain_zero hop, if_neg (by omega)]
    | succ k =>
      rw [outcome_chain_succ hop, outcome_negate hexponent hte hfe hrest]
      by_cases he : exponent.need + 1 ≤ k
      · rw [if_pos he, outcome_chain_of_follows hrest (by decide), if_pos (by omega), ok_bind]
        rw [show room - 1 - (powerNegate base exponent).spine = k by omega]
      · rw [if_neg he, if_neg (by omega), error_bind]
  · rw [if_neg hb, if_neg (by omega)]

/-- An operand that takes no depth of its own. -/
theorem outcome_leaf {tokens rest : List Token} {t : Term} (h : ∀ read, outcome (operand read tokens) = .ok (t, rest))
    (room rank : Nat) : outcome (expression room rank tokens) =
      if 1 ≤ room then outcome (chain (room - 1) rank t rest) else .error .tooDeep := by
  cases room with
  | zero => rfl
  | succ room =>
    rw [outcome_expression_succ, h, if_pos (by omega), ok_bind, Nat.add_sub_cancel]

theorem reads_number (x : Float) : (number x).Reads := by
  intro t ht front rest room rank hfront _ _
  cases ht
  obtain ⟨⟨kind, position⟩, tail, rfl, rfl, htail⟩ := List.map_eq_cons_iff.mp hfront
  cases List.map_eq_nil_iff.mp htail
  exact outcome_leaf (fun _ => outcome_operand_number x) room rank

theorem reads_name (word : String) : (name word).Reads := by
  intro t ht front rest room rank hfront _ hrest
  cases ht
  obtain ⟨⟨kind, position⟩, tail, rfl, rfl, htail⟩ := List.map_eq_cons_iff.mp hfront
  cases List.map_eq_nil_iff.mp htail
  exact outcome_leaf (fun _ => outcome_operand_name word hrest.ne_opening) room rank

theorem reads_bracket {inner : Derivation .sum} (shape : Bracket) (hinner : inner.Reads) :
    (bracket shape inner).Reads := by
  intro t ht front rest room rank hfront _ _
  obtain ⟨⟨kind, position⟩, tail, rfl, rfl, htail⟩ := List.map_eq_cons_iff.mp hfront
  obtain ⟨fi, tail', rfl, hfi, htail'⟩ := List.map_eq_append_iff.mp htail
  obtain ⟨⟨kind', position'⟩, tail'', rfl, rfl, hnil⟩ := List.map_eq_cons_iff.mp htail'
  cases List.map_eq_nil_iff.mp hnil
  have hneed : (bracket shape inner).need = inner.need + 1 := by rw [need]
  cases room with
  | zero => rw [outcome_expression_zero, if_neg (by omega)]
  | succ room =>
    have hfollows : Follows 0 (⟨.closing shape, position'⟩ :: rest) := trivial
    rw [List.cons_append, outcome_expression_succ, outcome_operand_bracket, List.append_assoc,
      List.singleton_append, hinner t ht fi _ room 1 hfi (Nat.le_refl _) (hfollows.mono (Nat.zero_le _))]
    by_cases hi : inner.need ≤ room
    · rw [if_pos hi, if_pos (by omega), outcome_chain_of_follows hfollows Nat.zero_lt_one]
      simp only [ok_bind, outcome_closing, if_true]
      rfl
    · rw [if_neg hi, if_neg (by omega)]
      simp only [error_bind]

theorem readsAll_singleton {last : Derivation .sum} (hlast : last.Reads) : ReadsAll [last] := by
  intro _ ts hts front rest room opened hfront
  obtain ⟨t, ht, _, hnil, rfl⟩ := terms?_cons.mp hts
  cases hnil
  obtain ⟨fl, tail, rfl, hfl, htail⟩ := List.map_eq_append_iff.mp hfront
  obtain ⟨⟨kind, position⟩, tail', rfl, rfl, hnil⟩ := List.map_eq_cons_iff.mp htail
  cases List.map_eq_nil_iff.mp hnil
  have hfollows : Follows 0 (⟨.closing .round, position⟩ :: rest) := trivial
  have hneed : argumentNeed [last] = last.need := by rw [argumentNeed, argumentNeed, Nat.max_zero]
  rw [outcome_arguments, List.append_assoc, List.singleton_append]
  rw [hlast t ht fl _ room 1 hfl (Nat.le_refl _) (hfollows.mono (Nat.zero_le _)), hneed]
  by_cases hl : last.need ≤ room
  · rw [if_pos hl, if_pos hl, outcome_chain_of_follows hfollows Nat.zero_lt_one, ok_bind]
  · rw [if_neg hl, if_neg hl, error_bind]

theorem readsAll_cons {first second : Derivation .sum} {others : List (Derivation .sum)} (hfirst : first.Reads)
    (hothers : ReadsAll (second :: others)) : ReadsAll (first :: second :: others) := by
  intro _ ts hts front rest room opened hfront
  obtain ⟨t, ht, ts', hts', rfl⟩ := terms?_cons.mp hts
  obtain ⟨ff, tail, rfl, hff, htail⟩ := List.map_eq_append_iff.mp hfront
  obtain ⟨⟨kind, position⟩, fo, rfl, rfl, hfo⟩ := List.map_eq_cons_iff.mp htail
  have hfollows : Follows 0 (⟨.comma, position⟩ :: (fo ++ rest)) := trivial
  have hneed : argumentNeed (first :: second :: others) = max first.need (argumentNeed (second :: others)) := by
    rw [argumentNeed]
  rw [outcome_arguments, List.append_assoc, List.cons_append]
  rw [hfirst t ht ff _ room 1 hff (Nat.le_refl _) (hfollows.mono (Nat.zero_le _)), hneed]
  by_cases hf : first.need ≤ room
  · rw [if_pos hf, outcome_chain_of_follows hfollows Nat.zero_lt_one]
    simp only [ok_bind, hothers (List.cons_ne_nil second others) ts' hts' fo rest room opened hfo]
    by_cases ho : argumentNeed (second :: others) ≤ room
    · rw [if_pos ho, if_pos (by omega), ok_bind]
    · rw [if_neg ho, if_neg (by omega), error_bind]
  · rw [if_neg hf, if_neg (by omega), error_bind]

/-- No phrase starts with a closing bracket. -/
theorem kinds_eq_cons : {s : Stratum} → (d : Derivation s) → ∃ k ks, d.kinds = k :: ks ∧ ∀ shape, k ≠ .closing shape
  | _, lift _ inner => inner.kinds_eq_cons
  | _, binary _ _ left _ => by
    obtain ⟨k, ks, hk, hne⟩ := left.kinds_eq_cons
    exact ⟨k, _, by rw [kinds, hk, List.cons_append], hne⟩
  | _, negate _ => ⟨.operator .subtract, _, by rw [kinds], nofun⟩
  | _, powerNegate base _ => by
    obtain ⟨k, ks, hk, hne⟩ := base.kinds_eq_cons
    exact ⟨k, _, by rw [kinds, hk, List.cons_append], hne⟩
  | _, number x => ⟨.number x, _, by rw [kinds], nofun⟩
  | _, name word => ⟨.word word, _, by rw [kinds], nofun⟩
  | _, call word _ => ⟨.word word, _, by rw [kinds], nofun⟩
  | _, bracket shape _ => ⟨.opening shape, _, by rw [kinds], nofun⟩

theorem argumentKinds_cons_ne_closing (first : Derivation .sum) (others : List (Derivation .sum)) {front : List Token}
    (h : front.map Token.kind = argumentKinds (first :: others)) (rest : List Token) (p : Nat) (tail : List Token) :
    front ++ rest ≠ ⟨.closing .round, p⟩ :: tail := by
  obtain ⟨k, ks, hk, hne⟩ := first.kinds_eq_cons
  have hhead : ∃ tail', argumentKinds (first :: others) = k :: tail' := by
    cases others with
    | nil => exact ⟨_, by rw [argumentKinds, hk, List.cons_append]⟩
    | cons second others => exact ⟨_, by rw [argumentKinds_cons, hk, List.cons_append]⟩
  obtain ⟨tail', htail'⟩ := hhead
  obtain ⟨token, front', rfl, htoken, -⟩ := List.map_eq_cons_iff.mp (h.trans htail')
  intro heq
  cases heq
  exact hne .round htoken.symm

theorem reads_call {args : List (Derivation .sum)} (word : String) (hargs : ReadsAll args) :
    (call word args).Reads := by
  intro t ht front rest room rank hfront _ _
  obtain ⟨function, hfunction, ts, hts, hadmits, rfl⟩ := term?_call.mp ht
  obtain ⟨⟨kind, position⟩, tail, rfl, rfl, htail⟩ := List.map_eq_cons_iff.mp hfront
  obtain ⟨⟨kind', opened⟩, fa, rfl, rfl, hfa⟩ := List.map_eq_cons_iff.mp htail
  have hneed : (call word args).need = argumentNeed args + 1 := by rw [need]
  cases room with
  | zero => rw [outcome_expression_zero, if_neg (by omega)]
  | succ room =>
    have hread : outcome (callArguments (expression room 1) opened (fa ++ rest)) =
        if argumentNeed args ≤ room then .ok (ts, rest) else .error .tooDeep := by
      cases args with
      | nil =>
        obtain ⟨⟨kind'', position''⟩, tail', rfl, rfl, hnil⟩ := List.map_eq_cons_iff.mp hfa
        cases List.map_eq_nil_iff.mp hnil
        cases hts
        rw [if_pos (by rw [argumentNeed]; exact Nat.zero_le _)]
        exact outcome_callArguments_nil
      | cons first others =>
        rw [outcome_callArguments (argumentKinds_cons_ne_closing first others hfa rest)]
        exact hargs (List.cons_ne_nil first others) ts hts fa rest room opened hfa
    rw [List.cons_append, List.cons_append, outcome_expression_succ, outcome_operand_call, hfunction]
    simp only [hread]
    by_cases ha : argumentNeed args ≤ room
    · rw [if_pos ha, if_pos (by omega)]
      simp only [ok_bind, if_pos hadmits]
      rfl
    · rw [if_neg ha, if_neg (by omega)]
      simp only [error_bind]

end Rules

/-! ## All derivations -/

mutual

/-- Every derivation is read as its term if there is room for what it needs. -/
theorem reads : {s : Stratum} → (d : Derivation s) → d.Reads
  | _, lift h inner => reads_lift h inner.reads
  | _, binary _ h left right => reads_binary h left.reads right.reads
  | _, negate inner => reads_negate inner.reads
  | _, powerNegate base exponent => reads_powerNegate base.reads exponent.reads
  | _, number x => reads_number x
  | _, name word => reads_name word
  | _, call word args => reads_call word (readsAll args)
  | _, bracket shape inner => reads_bracket shape inner.reads

theorem readsAll : (args : List (Derivation .sum)) → ReadsAll args
  | [] => fun h => absurd rfl h
  | [last] => readsAll_singleton last.reads
  | first :: second :: others => readsAll_cons first.reads (readsAll (second :: others))

end

end Derivation
end ParetoSweep
