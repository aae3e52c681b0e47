import ParetoSweep.Proofs.Formula.Height

/-!
# The depth that a formula takes

Read from left to right, a phrase is a first operand followed by operators with their right operands, and these are
phrases themselves (`Chained`). Its depth is one unit for the phrase and the most that one of its operands takes, where
a right operand takes a unit for each operator up to it as well (`Chained.need`). Operands, groups and arguments beside
each other do not add up. A formula is too deep exactly if its depth is more than the limit (`ofTokens_of_chained`).
-/

namespace ParetoSweep

open Term

/-! ## Chains of operators -/

mutual

/-- What a chain of operators starts with. -/
inductive Operand where
  | number (value : Float)
  | name (word : String)
  | call (word : String) (args : List Chained)
  | bracket (shape : Bracket) (inner : Chained)
  | negate (inner : Chained)

/-- A phrase as a first operand and what follows it. -/
inductive Chained where
  | mk (first : Operand) (links : List Link)

/-- An operator and its right operand, which is a phrase. -/
inductive Link where
  | mk (op : Operator) (right : Chained)

end

mutual

/-- The depth that an operand takes. -/
def Operand.need : Operand → Nat
  | .number _ => 0
  | .name _ => 0
  | .call _ args => largestNeed args
  | .bracket _ inner => inner.need
  | .negate inner => inner.need

/-- The largest depth that one of some arguments takes. -/
def largestNeed : List Chained → Nat
  | [] => 0
  | arg :: args => max arg.need (largestNeed args)

/-- The depth that a phrase takes. -/
def Chained.need : Chained → Nat
  | .mk first links => 1 + max first.need (linksNeed 1 links)

/-- The most that one of some right operands takes, the first of which stands behind the operator number `j`. -/
def linksNeed (j : Nat) : List Link → Nat
  | [] => 0
  | .mk _ right :: links => max (j + right.need) (linksNeed (j + 1) links)

end

mutual

/-- The tokens of an operand. -/
def Operand.kinds : Operand → List Token.Kind
  | .number value => [.number value]
  | .name word => [.word word]
  | .call word args => .word word :: .opening .round :: chainedArgumentKinds args
  | .bracket shape inner => .opening shape :: (inner.kinds ++ [.closing shape])
  | .negate inner => .operator .subtract :: inner.kinds

/-- The tokens of arguments up to the closing bracket. -/
def chainedArgumentKinds : List Chained → List Token.Kind
  | [] => [.closing .round]
  | [last] => last.kinds ++ [.closing .round]
  | first :: rest => first.kinds ++ .comma :: chainedArgumentKinds rest

/-- The tokens of a phrase. -/
def Chained.kinds : Chained → List Token.Kind
  | .mk first links => first.kinds ++ linksKinds links

/-- The tokens of operators with their right operands. -/
def linksKinds : List Link → List Token.Kind
  | [] => []
  | .mk op right :: links => .operator op :: (right.kinds ++ linksKinds links)

end

theorem chainedArgumentKinds_cons (first second : Chained) (others : List Chained) :
    chainedArgumentKinds (first :: second :: others) =
      first.kinds ++ .comma :: chainedArgumentKinds (second :: others) := by
  rw [chainedArgumentKinds]
  exact List.cons_ne_nil second others

section Links

variable {op : Operator} {right : Chained} {links : List Link}

theorem linksNeed_concat (j : Nat) : linksNeed j (links ++ [.mk op right]) =
    max (linksNeed j links) (j + links.length + right.need) := by
  induction links generalizing j with
  | nil => simp [linksNeed]
  | cons link links ih =>
    obtain ⟨op', right'⟩ := link
    simp only [List.cons_append, linksNeed, ih, List.length_cons]
    omega

theorem linksKinds_concat : linksKinds (links ++ [.mk op right]) = linksKinds links ++ .operator op :: right.kinds := by
  induction links with
  | nil => simp [linksKinds]
  | cons link links ih =>
    obtain ⟨op', right'⟩ := link
    simp [linksKinds, ih]

end Links

namespace Chained

/-- A phrase that is a single operand. -/
def ofOperand (first : Operand) : Chained := .mk first []

/-- One operator more behind a phrase. -/
def concat : Chained → Operator → Chained → Chained
  | .mk first links, op, right => .mk first (links ++ [.mk op right])

/-- The number of operators of the chain. -/
def length : Chained → Nat
  | .mk _ links => links.length

variable {first : Operand} {left right : Chained} {op : Operator}

theorem need_ofOperand : (ofOperand first).need = first.need + 1 := by
  simp [ofOperand, need, linksNeed, Nat.add_comm]

theorem need_concat : (left.concat op right).need = max left.need (left.length + 2 + right.need) := by
  obtain ⟨first, links⟩ := left
  simp only [concat, need, linksNeed_concat, length]
  omega

theorem length_concat : (left.concat op right).length = left.length + 1 := by
  obtain ⟨first, links⟩ := left
  simp [concat, length]

theorem kinds_ofOperand : (ofOperand first).kinds = first.kinds := by
  simp [ofOperand, kinds, linksKinds]

theorem kinds_concat : (left.concat op right).kinds = left.kinds ++ .operator op :: right.kinds := by
  obtain ⟨first, links⟩ := left
  simp [concat, kinds, linksKinds_concat]

end Chained

/-! ## Derivations as chains -/

namespace Derivation

mutual

/-- A derivation as a chain: its operators that are not in brackets, behind a sign or in a right operand. -/
def chained : {s : Stratum} → Derivation s → Chained
  | _, lift _ inner => inner.chained
  | _, binary op _ left right => left.chained.concat op right.chained
  | _, negate inner => .ofOperand (.negate inner.chained)
  | _, powerNegate base exponent => base.chained.concat .power (.ofOperand (.negate exponent.chained))
  | _, number value => .ofOperand (.number value)
  | _, name word => .ofOperand (.name word)
  | _, call word args => .ofOperand (.call word (chainedAll args))
  | _, bracket shape inner => .ofOperand (.bracket shape inner.chained)

/-- Arguments as chains. -/
def chainedAll : List (Derivation .sum) → List Chained
  | [] => []
  | first :: rest => first.chained :: chainedAll rest

end

mutual

/-- A chain has the tokens of the derivation. -/
theorem kinds_chained : {s : Stratum} → (d : Derivation s) → d.chained.kinds = d.kinds
  | _, lift _ inner => by rw [chained, kinds, inner.kinds_chained]
  | _, binary op _ left right => by
    rw [chained, kinds, Chained.kinds_concat, left.kinds_chained, right.kinds_chained]
  | _, negate inner => by rw [chained, kinds, Chained.kinds_ofOperand, Operand.kinds, inner.kinds_chained]
  | _, powerNegate base exponent => by
    rw [chained, kinds, Chained.kinds_concat, Chained.kinds_ofOperand, Operand.kinds, base.kinds_chained,
      exponent.kinds_chained]
  | _, number value => by rw [chained, kinds, Chained.kinds_ofOperand, Operand.kinds]
  | _, name word => by rw [chained, kinds, Chained.kinds_ofOperand, Operand.kinds]
  | _, call word args => by
    rw [chained, kinds, Chained.kinds_ofOperand, Operand.kinds, kinds_chainedAll args]
  | _, bracket shape inner => by
    rw [chained, kinds, Chained.kinds_ofOperand, Operand.kinds, inner.kinds_chained]

theorem kinds_chainedAll : (args : List (Derivation .sum)) →
    chainedArgumentKinds (chainedAll args) = argumentKinds args
  | [] => by rw [chainedAll, chainedArgumentKinds, argumentKinds]
  | [last] => by rw [chainedAll, chainedAll, chainedArgumentKinds, argumentKinds, last.kinds_chained]
  | first :: second :: others => by
    have hothers := kinds_chainedAll (second :: others)
    rw [chainedAll] at hothers
    rw [chainedAll, chainedAll, chainedArgumentKinds_cons, argumentKinds_cons, first.kinds_chained, hothers]

end

theorem length_chained : {s : Stratum} → (d : Derivation s) → d.chained.length = d.spine
  | _, lift _ inner => by rw [chained, spine, inner.length_chained]
  | _, binary _ _ left _ => by rw [chained, spine, Chained.length_concat, left.length_chained]
  | _, powerNegate base _ => by rw [chained, spine, Chained.length_concat, base.length_chained]
  | _, negate _ => by rw [chained]; rfl
  | _, number _ => by rw [chained]; rfl
  | _, name _ => by rw [chained]; rfl
  | _, call _ _ => by rw [chained]; rfl
  | _, bracket _ _ => by rw [chained]; rfl

mutual

/-- The depth of the chain is the depth that reading the derivation takes. -/
theorem need_chained : {s : Stratum} → (d : Derivation s) → d.chained.need = d.need
  | _, lift _ inner => by rw [chained, need, inner.need_chained]
  | _, binary _ _ left right => by
    rw [chained, need, Chained.need_concat, left.need_chained, left.length_chained, right.need_chained]
  | _, negate inner => by rw [chained, need, Chained.need_ofOperand, Operand.need, inner.need_chained]
  | _, powerNegate base exponent => by
    rw [chained, need, Chained.need_concat, Chained.need_ofOperand, Operand.need, base.need_chained,
      base.length_chained, exponent.need_chained]
    omega
  | _, number _ => by rw [chained, need, Chained.need_ofOperand, Operand.need]
  | _, name _ => by rw [chained, need, Chained.need_ofOperand, Operand.need]
  | _, call _ args => by
    rw [chained, need, Chained.need_ofOperand, Operand.need, largestNeed_chainedAll args]
  | _, bracket _ inner => by rw [chained, need, Chained.need_ofOperand, Operand.need, inner.need_chained]

theorem largestNeed_chainedAll : (args : List (Derivation .sum)) → largestNeed (chainedAll args) = argumentNeed args
  | [] => by rw [chainedAll, largestNeed, argumentNeed]
  | first :: rest => by
    rw [chainedAll, largestNeed, argumentNeed, first.need_chained, largestNeed_chainedAll rest]

end

end Derivation

/-! ## Formulas that are too deep -/

section Limit

open ParetoSweep.Derivation

variable {tokens : List Token} {t : Term} {d : Derivation .sum}

/-- **A formula that the grammar derives is too deep iff its chain needs more depth than the limit**, and otherwise it
is read as its term. -/
theorem ofTokens_of_chained (hkinds : d.kinds = tokens.map Token.kind) (hterm : d.term? = some t) :
    d.chained.kinds = tokens.map Token.kind ∧
      ofTokens tokens = if d.chained.need > 512 then .error .tooDeep else .ok t := by
  refine ⟨d.kinds_chained.trans hkinds, ?_⟩
  rw [ofTokens_of_derivation hkinds hterm, d.need_chained, depthLimit]
  by_cases h : d.need ≤ 512
  · rw [if_pos h, if_neg (by omega)]
  · rw [if_neg h, if_pos (by omega)]

/-- An `x` and 510 more that are added to it are accepted, and one more is not. -/
theorem ofTokens_of_chained_plus :
    (∃ tokens t, (plus (ofAtom (.name "x")) 510).kinds = tokens.map Token.kind ∧ ofTokens tokens = .ok t) ∧
      ∃ tokens, (plus (ofAtom (.name "x")) 511).kinds = tokens.map Token.kind ∧
        ofTokens tokens = .error .tooDeep := by
  have hterm : (ofAtom (.name "x")).term? = some (Term.ofName "x") := rfl
  have hneed : ∀ times, times ≠ 0 → (plus (ofAtom (.name "x")) times).chained.need = times + 2 := by
    intro times htimes
    rw [need_chained, need_plus times rfl, if_neg htimes]
    exact Nat.max_eq_right (Nat.le_add_left 1 _)
  have htokens : ∀ ks : List Token.Kind, ks = (ks.map fun k => (⟨k, 0⟩ : Token)).map Token.kind := by
    intro ks
    rw [List.map_map]
    exact (List.map_id ks).symm
  constructor
  · obtain ⟨t, ht⟩ := term_plus 510 hterm
    refine ⟨_, t, htokens _, ?_⟩
    rw [(ofTokens_of_chained (htokens _) ht).2, hneed 510 (by decide), if_neg (by decide)]
  · obtain ⟨t, ht⟩ := term_plus 511 hterm
    refine ⟨_, htokens _, ?_⟩
    rw [(ofTokens_of_chained (htokens _) ht).2, hneed 511 (by decide), if_pos (by decide)]

end Limit
end ParetoSweep
