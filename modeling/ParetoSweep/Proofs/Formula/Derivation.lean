import ParetoSweep.Formula.Grammar

/-!
# The grammar of formulas

A formula is a sum of products of signed powers. The strata of the grammar are numbered by the ranks of their operators
(`Stratum`), and a phrase of one stratum is a phrase of the next one, possibly after an operator and a phrase of the
same stratum, which is what groups operators to the left. A minus sign stands in front of signed phrases, and also
between a power sign and a signed phrase.

Derivations are data: they have tokens (`kinds`), a term if their calls are right (`term?`), and they need some depth
(`need`). How they are read is the subject of the modules on completeness and soundness.
-/

namespace ParetoSweep

/-- The kinds of phrases, from loosely to tightly bound. -/
inductive Stratum where
  | sum
  | product
  | signed
  | power
  | atom
deriving DecidableEq, Repr

namespace Stratum

/-- The rank of the operators that make up a phrase; there is none for signed phrases and atoms. -/
def rank : Stratum → Nat
  | sum => 1
  | product => 2
  | signed => 3
  | power => 4
  | atom => 5

/-- The stratum of the operands. -/
def next : Stratum → Stratum
  | sum => product
  | product => signed
  | signed => power
  | power => atom
  | atom => atom

end Stratum

/-- Derivations of the grammar. -/
inductive Derivation : Stratum → Type where
  /-- A phrase of the next stratum. -/
  | lift {s : Stratum} (h : s ≠ .atom) (inner : Derivation s.next) : Derivation s
  /-- A phrase, an operator of the stratum and a phrase of the next stratum. -/
  | binary {s : Stratum} (op : Operator) (h : op.rank = s.rank) (left : Derivation s) (right : Derivation s.next) :
    Derivation s
  /-- A minus sign and a signed phrase. -/
  | negate (inner : Derivation .signed) : Derivation .signed
  /-- A power whose exponent starts with a minus sign. -/
  | powerNegate (base : Derivation .power) (exponent : Derivation .signed) : Derivation .signed
  /-- A numeral. -/
  | number (value : Float) : Derivation .atom
  /-- A constant or a variable. -/
  | name (word : String) : Derivation .atom
  /-- A word and arguments in brackets. -/
  | call (word : String) (args : List (Derivation .sum)) : Derivation .atom
  /-- A sum in brackets. -/
  | bracket (shape : Bracket) (inner : Derivation .sum) : Derivation .atom

namespace Derivation

mutual

/-- The tokens of a derivation, apart from their positions. -/
def kinds : {s : Stratum} → Derivation s → List Token.Kind
  | _, lift _ inner => inner.kinds
  | _, binary op _ left right => left.kinds ++ .operator op :: right.kinds
  | _, negate inner => .operator .subtract :: inner.kinds
  | _, powerNegate base exponent => base.kinds ++ .operator .power :: .operator .subtract :: exponent.kinds
  | _, number value => [.number value]
  | _, name word => [.word word]
  | _, call word args => .word word :: .opening .round :: argumentKinds args
  | _, bracket shape inner => .opening shape :: (inner.kinds ++ [.closing shape])

/-- The tokens of arguments up to the closing bracket. -/
def argumentKinds : List (Derivation .sum) → List Token.Kind
  | [] => [.closing .round]
  | [last] => last.kinds ++ [.closing .round]
  | first :: rest => first.kinds ++ .comma :: argumentKinds rest

end

theorem argumentKinds_cons (first second : Derivation .sum) (others : List (Derivation .sum)) :
    argumentKinds (first :: second :: others) = first.kinds ++ .comma :: argumentKinds (second :: others) := by
  rw [argumentKinds]
  exact List.cons_ne_nil second others

mutual

/-- The term of a derivation, if all functions are known and have the right numbers of arguments. -/
def term? : {s : Stratum} → Derivation s → Option Term
  | _, lift _ inner => inner.term?
  | _, binary op _ left right => return .binary op (← left.term?) (← right.term?)
  | _, negate inner => return .negate (← inner.term?)
  | _, powerNegate base exponent => return .binary .power (← base.term?) (.negate (← exponent.term?))
  | _, number value => some (.number value)
  | _, name word => some (Term.ofName word)
  | _, call word args => do
    let function ← Builtin.ofName? word
    let ts ← terms? args
    if function.arity.admits ts.length then some (.call function ts) else none
  | _, bracket _ inner => inner.term?

/-- The terms of arguments. -/
def terms? : List (Derivation .sum) → Option (List Term)
  | [] => some []
  | first :: rest => return (← first.term?) :: (← terms? rest)

end

section Terms

variable {s : Stratum} {t : Term} {ts : List Term}

theorem term?_binary {op : Operator} {h : op.rank = s.rank} {left : Derivation s} {right : Derivation s.next} :
    (binary op h left right).term? = some t ↔
      ∃ tl, left.term? = some tl ∧ ∃ tr, right.term? = some tr ∧ .binary op tl tr = t := by
  simp [term?, Option.bind_eq_some_iff]

theorem term?_negate {inner : Derivation .signed} :
    (negate inner).term? = some t ↔ ∃ ti, inner.term? = some ti ∧ .negate ti = t := by
  simp [term?, Option.bind_eq_some_iff]

theorem term?_powerNegate {base : Derivation .power} {exponent : Derivation .signed} :
    (powerNegate base exponent).term? = some t ↔
      ∃ tb, base.term? = some tb ∧ ∃ te, exponent.term? = some te ∧ .binary .power tb (.negate te) = t := by
  simp [term?, Option.bind_eq_some_iff]

theorem term?_call {word : String} {args : List (Derivation .sum)} :
    (call word args).term? = some t ↔ ∃ function, Builtin.ofName? word = some function ∧
      ∃ ts, terms? args = some ts ∧ function.arity.admits ts.length = true ∧ .call function ts = t := by
  simp [term?, Option.bind_eq_some_iff]

theorem terms?_cons {first : Derivation .sum} {rest : List (Derivation .sum)} :
    terms? (first :: rest) = some ts ↔ ∃ t, first.term? = some t ∧ ∃ ts', terms? rest = some ts' ∧ t :: ts' = ts := by
  simp [terms?, Option.bind_eq_some_iff]

end Terms

/-- How many operators of a derivation are not in brackets, behind a sign or in a right operand. -/
def spine : {s : Stratum} → Derivation s → Nat
  | _, lift _ inner => inner.spine
  | _, binary _ _ left _ => left.spine + 1
  | _, powerNegate base _ => base.spine + 1
  | _, _ => 0

mutual

/-- The depth that reading a derivation takes. -/
def need : {s : Stratum} → Derivation s → Nat
  | _, lift _ inner => inner.need
  | _, binary _ _ left right => max left.need (left.spine + 2 + right.need)
  | _, negate inner => inner.need + 1
  | _, powerNegate base exponent => max base.need (base.spine + 3 + exponent.need)
  | _, number _ => 1
  | _, name _ => 1
  | _, call _ args => argumentNeed args + 1
  | _, bracket _ inner => inner.need + 1

/-- The largest depth that an argument takes. -/
def argumentNeed : List (Derivation .sum) → Nat
  | [] => 0
  | first :: rest => max first.need (argumentNeed rest)

end

end Derivation
end ParetoSweep
