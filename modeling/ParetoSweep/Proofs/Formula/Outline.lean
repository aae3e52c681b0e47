import ParetoSweep.Proofs.Formula.Completeness

/-!
# Beginnings of phrases

Which tokens can come next depends on two things only, the brackets that are open and whether an operand is due
(`Outline`). An outline is kept up to date token by token (`advance`), and it gets stuck as soon as no sum begins with
the tokens up to this one (`viable_iff`).

The tokens of a derivation never get stuck, by induction on the derivation. For the converse, what has been read is cut
at the open brackets (`Held`) into pieces that become phrases once their last operand is there (`Awaits`).
-/

namespace ParetoSweep

/-- Some tokens are a phrase of a stratum, whatever functions it calls and with whatever arguments. -/
def Phrase (s : Stratum) (kinds : List Token.Kind) : Prop := ∃ d : Derivation s, d.kinds = kinds

/-- Some tokens are the beginning of a sum. -/
def Viable (kinds : List Token.Kind) : Prop := ∃ more, Phrase .sum (kinds ++ more)

/-! ## Outlines -/

/-- An open bracket: one around an operand, or the round one of a call. -/
inductive Opening where
  | group (shape : Bracket) (position : Nat)
  | call (position : Nat)

namespace Opening

/-- The shape of the bracket. -/
@[simp] def shape : Opening → Bracket
  | group shape _ => shape
  | call _ => .round

/-- Where the bracket stands. -/
@[simp] def position : Opening → Nat
  | group _ position => position
  | call position => position

end Opening

/-- Where in an expression the next token stands. -/
inductive Phase where
  /-- An operand is due. -/
  | operand
  /-- An operand is due, or the bracket that ends a call without arguments. -/
  | argument
  /-- A name has just ended, unless the bracket of a call follows. -/
  | name
  /-- An operand has ended. -/
  | done

/-- The brackets that are open, the innermost first, and where in the innermost one the next token stands. -/
structure Outline where
  opened : List Opening
  phase : Phase

namespace Outline

/-- The outline before the first token. -/
def start : Outline := ⟨[], .operand⟩

/-- The outline after the first token of an operand. -/
def enter (opened : List Opening) : Token → Option Outline
  | ⟨.number _, _⟩ => some ⟨opened, .done⟩
  | ⟨.word _, _⟩ => some ⟨opened, .name⟩
  | ⟨.operator .subtract, _⟩ => some ⟨opened, .operand⟩
  | ⟨.opening shape, position⟩ => some ⟨.group shape position :: opened, .operand⟩
  | _ => none

/-- The outline after a token behind an operand. -/
def leave : List Opening → Token → Option Outline
  | opened, ⟨.operator _, _⟩ => some ⟨opened, .operand⟩
  | .call position :: outer, ⟨.comma, _⟩ => some ⟨.call position :: outer, .operand⟩
  | opening :: outer, ⟨.closing shape, _⟩ => if opening.shape = shape then some ⟨outer, .done⟩ else none
  | _, _ => none

/-- The outline after one more token, if there can be one. -/
def advance (o : Outline) (token : Token) : Option Outline :=
  match o.phase with
  | .operand => enter o.opened token
  | .argument => if token.kind = .closing .round then leave o.opened token else enter o.opened token
  | .name =>
    if token.kind = .opening .round then some ⟨.call token.position :: o.opened, .argument⟩
    else leave o.opened token
  | .done => leave o.opened token

/-- The outline after some more tokens. -/
def run (o : Outline) (tokens : List Token) : Option Outline := tokens.foldlM advance o

/-- An operand is due. -/
def Due (o : Outline) : Prop := o.phase = .operand ∨ o.phase = .argument

/-- An operand has ended. -/
def Settled (o : Outline) : Prop := o.phase = .name ∨ o.phase = .done

section Steps

variable {o o' : Outline} {token : Token} {front tokens : List Token} {opened : List Opening}

@[simp] theorem run_nil : run o [] = some o := rfl

@[simp] theorem run_cons : run o (token :: tokens) = (advance o token).bind (run · tokens) := rfl

theorem run_append : run o (front ++ tokens) = (run o front).bind (run · tokens) :=
  List.foldlM_append

theorem run_singleton : run o [token] = advance o token := by
  rw [run_cons]
  exact Option.bind_fun_some _

theorem leave_closing (opening : Opening) (shape : Bracket) (position : Nat) :
    leave (opening :: opened) ⟨.closing shape, position⟩ =
      if opening.shape = shape then some ⟨opened, .done⟩ else none := by
  cases opening <;> rfl

/-- Where an operand is due, only a closing bracket may end a call instead. -/
theorem advance_of_due (h : o.Due) (hkind : token.kind ≠ .closing .round) : advance o token = enter o.opened token := by
  unfold advance
  rcases h with h | h
  · rw [h]
  · rw [h]
    exact if_neg hkind

/-- Behind an operand, only the bracket of a call may follow a name instead. -/
theorem advance_of_settled (h : o.Settled) (hkind : token.kind ≠ .opening .round) :
    advance o token = leave o.opened token := by
  unfold advance
  rcases h with h | h
  · rw [h]
    exact if_neg hkind
  · rw [h]

end Steps

end Outline

/-! ## Phrases have outlines -/

open Outline

/-- Where an operand is due, some tokens leave the outline behind an operand in the same brackets. -/
def Spans (kinds : List Token.Kind) : Prop :=
  ∀ tokens : List Token, tokens.map Token.kind = kinds → ∀ o : Outline, o.Due →
    ∃ o', run o tokens = some o' ∧ o'.opened = o.opened ∧ o'.Settled

/-- Where an argument is due, some tokens leave the outline behind the call. -/
def SpansCall (kinds : List Token.Kind) (o : Outline) : Prop :=
  ∀ tokens : List Token, tokens.map Token.kind = kinds → ∀ position outer, o.opened = .call position :: outer →
    run o tokens = some ⟨outer, .done⟩

section Spans

variable {ks ks' : List Token.Kind} {shape : Bracket} {o : Outline}

/-- A token that is an operand. -/
theorem Spans.singleton {kind : Token.Kind} {phase : Phase} (hphase : phase = .name ∨ phase = .done)
    (hkind : kind ≠ .closing .round) (h : ∀ opened position, enter opened ⟨kind, position⟩ = some ⟨opened, phase⟩) :
    Spans [kind] := by
  intro tokens htokens o ho
  obtain ⟨⟨_, position⟩, tail, rfl, rfl, hnil⟩ := List.map_eq_cons_iff.mp htokens
  cases List.map_eq_nil_iff.mp hnil
  exact ⟨⟨o.opened, phase⟩, by rw [run_singleton, advance_of_due ho hkind, h], rfl, hphase⟩

theorem Spans.binary (op : Operator) (h : Spans ks) (h' : Spans ks') : Spans (ks ++ .operator op :: ks') := by
  intro tokens htokens o ho
  obtain ⟨front, tail, rfl, hfront, htail⟩ := List.map_eq_append_iff.mp htokens
  obtain ⟨⟨kind, position⟩, back, rfl, rfl, hback⟩ := List.map_eq_cons_iff.mp htail
  obtain ⟨o₁, hrun, hopened, hsettled⟩ := h front hfront o ho
  obtain ⟨o₂, hrun', hopened', hsettled'⟩ := h' back hback ⟨o₁.opened, .operand⟩ (Or.inl rfl)
  refine ⟨o₂, ?_, hopened'.trans hopened, hsettled'⟩
  rw [run_append, hrun, Option.bind_some, run_cons, advance_of_settled hsettled]
  · exact hrun'
  · nofun

theorem Spans.minus (h : Spans ks) : Spans (.operator .subtract :: ks) := by
  intro tokens htokens o ho
  obtain ⟨⟨kind, position⟩, tail, rfl, rfl, htail⟩ := List.map_eq_cons_iff.mp htokens
  obtain ⟨o', hrun, hopened, hsettled⟩ := h tail htail ⟨o.opened, .operand⟩ (Or.inl rfl)
  refine ⟨o', ?_, hopened, hsettled⟩
  rw [run_cons, advance_of_due ho]
  · exact hrun
  · nofun

theorem Spans.bracket (h : Spans ks) : Spans (.opening shape :: (ks ++ [.closing shape])) := by
  intro tokens htokens o ho
  obtain ⟨⟨kind, position⟩, tail, rfl, rfl, htail⟩ := List.map_eq_cons_iff.mp htokens
  obtain ⟨inner, tail', rfl, hinner, htail'⟩ := List.map_eq_append_iff.mp htail
  obtain ⟨⟨kind', position'⟩, tail'', rfl, rfl, hnil⟩ := List.map_eq_cons_iff.mp htail'
  cases List.map_eq_nil_iff.mp hnil
  obtain ⟨o', hrun, hopened, hsettled⟩ := h inner hinner ⟨.group shape position :: o.opened, .operand⟩ (Or.inl rfl)
  refine ⟨⟨o.opened, .done⟩, ?_, rfl, Or.inr rfl⟩
  rw [run_cons, advance_of_due ho]
  · show run _ (inner ++ _) = _
    rw [run_append, hrun, Option.bind_some, run_singleton, advance_of_settled hsettled, hopened]
    · exact if_pos rfl
    · nofun
  · nofun

theorem SpansCall.last (h : Spans ks) (ho : o.Due) : SpansCall (ks ++ [.closing .round]) o := by
  intro tokens htokens position outer hopened
  obtain ⟨front, tail, rfl, hfront, htail⟩ := List.map_eq_append_iff.mp htokens
  obtain ⟨⟨kind, position'⟩, tail', rfl, rfl, hnil⟩ := List.map_eq_cons_iff.mp htail
  cases List.map_eq_nil_iff.mp hnil
  obtain ⟨o', hrun, hopened', hsettled⟩ := h front hfront o ho
  rw [run_append, hrun, Option.bind_some, run_singleton, advance_of_settled hsettled, hopened', hopened]
  · rfl
  · nofun

theorem SpansCall.cons (h : Spans ks) (h' : ∀ opened, SpansCall ks' ⟨opened, .operand⟩) (ho : o.Due) :
    SpansCall (ks ++ .comma :: ks') o := by
  intro tokens htokens position outer hopened
  obtain ⟨front, tail, rfl, hfront, htail⟩ := List.map_eq_append_iff.mp htokens
  obtain ⟨⟨kind, position'⟩, back, rfl, rfl, hback⟩ := List.map_eq_cons_iff.mp htail
  obtain ⟨o', hrun, hopened', hsettled⟩ := h front hfront o ho
  rw [run_append, hrun, Option.bind_some, run_cons, advance_of_settled hsettled, hopened', hopened]
  · exact h' _ back hback position outer rfl
  · nofun

end Spans

namespace Derivation

mutual

/-- A phrase never gets an outline stuck. -/
theorem spans : {s : Stratum} → (d : Derivation s) → Spans d.kinds
  | _, lift _ inner => by
    rw [kinds]
    exact inner.spans
  | _, binary op _ left right => by
    rw [kinds]
    exact left.spans.binary op right.spans
  | _, negate inner => by
    rw [kinds]
    exact inner.spans.minus
  | _, powerNegate base exponent => by
    rw [kinds]
    exact base.spans.binary .power exponent.spans.minus
  | _, number _ => by
    rw [kinds]
    exact Spans.singleton (Or.inr rfl) nofun fun _ _ => rfl
  | _, name _ => by
    rw [kinds]
    exact Spans.singleton (Or.inl rfl) nofun fun _ _ => rfl
  | _, call word args => by
    intro tokens htokens o ho
    rw [kinds] at htokens
    obtain ⟨⟨kind, position⟩, tail, rfl, rfl, htail⟩ := List.map_eq_cons_iff.mp htokens
    obtain ⟨⟨kind', opened⟩, back, rfl, rfl, hback⟩ := List.map_eq_cons_iff.mp htail
    refine ⟨⟨o.opened, .done⟩, ?_, rfl, Or.inr rfl⟩
    rw [run_cons, advance_of_due ho]
    · exact spansCall args _ (fun _ => rfl) (Or.inr rfl) back hback opened o.opened rfl
    · nofun
  | _, bracket shape inner => by
    rw [kinds]
    exact inner.spans.bracket

/-- Arguments end the call; there may be none only right behind its bracket. -/
theorem spansCall : (args : List (Derivation .sum)) → (o : Outline) → (args = [] → o.phase = .argument) → o.Due →
    SpansCall (argumentKinds args) o
  | [], o, hphase, _ => by
    intro tokens htokens position outer hopened
    rw [argumentKinds] at htokens
    obtain ⟨⟨kind, position'⟩, tail, rfl, rfl, hnil⟩ := List.map_eq_cons_iff.mp htokens
    cases List.map_eq_nil_iff.mp hnil
    rw [run_singleton, advance, hphase rfl, hopened]
    rfl
  | [last], o, _, ho => by
    rw [argumentKinds]
    exact SpansCall.last last.spans ho
  | first :: second :: others, o, _, ho => by
    rw [argumentKinds_cons]
    exact SpansCall.cons first.spans (fun opened => spansCall (second :: others) _ nofun (Or.inl rfl)) ho

end

end Derivation

/-! ## Outlines have phrases -/

/-- What may stand where an operand is due: an atom, possibly behind minus signs. -/
inductive OperandKinds : List Token.Kind → Prop where
  | atom {ks : List Token.Kind} (h : Phrase .atom ks) : OperandKinds ks
  | minus {ks : List Token.Kind} (h : OperandKinds ks) : OperandKinds (.operator .subtract :: ks)

/-- Some tokens become a sum with any operand. -/
def Awaits (kinds : List Token.Kind) : Prop := ∀ ks, OperandKinds ks → Phrase .sum (kinds ++ ks)

/-- Sums that are each followed by a comma. -/
inductive Listed : List Token.Kind → Prop where
  | nil : Listed []
  | concat {ks p : List Token.Kind} (h : Listed ks) (hp : Phrase .sum p) : Listed (ks ++ (p ++ [.comma]))

/-- Some tokens end with the innermost of the open brackets or with arguments in it. -/
inductive Held : List Opening → List Token.Kind → Prop where
  | nil : Held [] []
  | group {opened : List Opening} {pre p : List Token.Kind} (shape : Bracket) (position : Nat) (h : Held opened pre)
    (hp : Awaits p) : Held (.group shape position :: opened) (pre ++ (p ++ [.opening shape]))
  | call {opened : List Opening} {pre p args : List Token.Kind} (word : String) (position : Nat) (h : Held opened pre)
    (hp : Awaits p) (hargs : Listed args) :
    Held (.call position :: opened) (pre ++ (p ++ .word word :: .opening .round :: args))

/-- What an outline says about the tokens before it. -/
inductive Means : Outline → List Token.Kind → Prop where
  | operand {opened : List Opening} {pre p : List Token.Kind} (h : Held opened pre) (hp : Awaits p) :
    Means ⟨opened, .operand⟩ (pre ++ p)
  | argument {opened : List Opening} {pre p : List Token.Kind} (word : String) (position : Nat) (h : Held opened pre)
    (hp : Awaits p) : Means ⟨.call position :: opened, .argument⟩ (pre ++ (p ++ [.word word, .opening .round]))
  | name {opened : List Opening} {pre p : List Token.Kind} (word : String) (h : Held opened pre) (hp : Awaits p) :
    Means ⟨opened, .name⟩ (pre ++ (p ++ [.word word]))
  | done {opened : List Opening} {pre p : List Token.Kind} (h : Held opened pre) (hp : Phrase .sum p) :
    Means ⟨opened, .done⟩ (pre ++ p)

section Phrases

variable {s : Stratum} {ks p args : List Token.Kind} {op : Operator}

/-- A phrase of a looser stratum. -/
theorem Phrase.lift (hs : s ≠ .atom) (h : Phrase s.next ks) : Phrase s ks := by
  obtain ⟨d, hd⟩ := h
  exact ⟨.lift hs d, by rw [Derivation.kinds, hd]⟩

theorem OperandKinds.signed (h : OperandKinds ks) : Phrase .signed ks := by
  induction h with
  | atom h => exact Phrase.lift (s := .signed) nofun (Phrase.lift (s := .power) nofun h)
  | minus h ih =>
    obtain ⟨d, hd⟩ := ih
    exact ⟨.negate d, by rw [Derivation.kinds, hd]⟩

theorem OperandKinds.sum (h : OperandKinds ks) : Phrase .sum ks :=
  Phrase.lift (s := .sum) nofun (Phrase.lift (s := .product) nofun h.signed)

namespace Derivation

/-- A power sign and an operand go on with a power. -/
theorem power_append (d : Derivation .power) (h : OperandKinds ks) :
    Phrase .signed (d.kinds ++ .operator .power :: ks) := by
  cases h with
  | atom h =>
    obtain ⟨exponent, rfl⟩ : Phrase Stratum.power.next ks := h
    have hop : Operator.power.rank = Stratum.power.rank := rfl
    have hpower : Phrase .power (d.kinds ++ .operator .power :: exponent.kinds) :=
      ⟨.binary .power hop d exponent, by rw [kinds]⟩
    exact Phrase.lift (s := .signed) nofun hpower
  | minus h =>
    obtain ⟨exponent, rfl⟩ := h.signed
    exact ⟨.powerNegate d exponent, by rw [kinds]⟩

/-- An operator that binds at least as tightly as a stratum goes on with its phrases: it belongs to the last phrase of
the stratum of the operator. -/
theorem phrase_append (h : OperandKinds ks) : {s : Stratum} → (d : Derivation s) → s.rank ≤ 3 → s.rank ≤ op.rank →
    Phrase s (d.kinds ++ .operator op :: ks)
  | .sum, d, _, hop => by
    -- An operator of this stratum takes the whole phrase, a tighter one only the last operand of the chain.
    by_cases hrank : op.rank = Stratum.sum.rank
    · obtain ⟨right, rfl⟩ : Phrase Stratum.sum.next ks := Phrase.lift (s := .product) nofun h.signed
      exact ⟨.binary op hrank d right, by rw [kinds]⟩
    · have hop' : Stratum.product.rank ≤ op.rank := Nat.lt_of_le_of_ne hop (Ne.symm hrank)
      cases d with
      | lift hs inner =>
        rw [kinds]
        exact Phrase.lift (s := .sum) nofun (inner.phrase_append h (by decide) hop')
      | binary op' hop'' left right =>
        obtain ⟨right', hright'⟩ := right.phrase_append h (by decide) hop'
        exact ⟨.binary op' hop'' left right', by simp [kinds, hright']⟩
  | .product, d, _, hop => by
    by_cases hrank : op.rank = Stratum.product.rank
    · obtain ⟨right, rfl⟩ : Phrase Stratum.product.next ks := h.signed
      exact ⟨.binary op hrank d right, by rw [kinds]⟩
    · have hop' : Stratum.signed.rank ≤ op.rank := Nat.lt_of_le_of_ne hop (Ne.symm hrank)
      cases d with
      | lift hs inner =>
        rw [kinds]
        exact Phrase.lift (s := .product) nofun (inner.phrase_append h (by decide) hop')
      | binary op' hop'' left right =>
        obtain ⟨right', hright'⟩ := right.phrase_append h (by decide) hop'
        exact ⟨.binary op' hop'' left right', by simp [kinds, hright']⟩
  | .signed, d, _, hop => by
    have hpower : op = .power := by
      cases op <;> first | rfl | exact absurd hop (by decide)
    cases d with
    | lift hs inner =>
      rw [kinds, hpower]
      exact inner.power_append h
    | binary op' hop' => cases op' <;> cases hop'
    | negate inner =>
      obtain ⟨inner', hinner'⟩ := inner.phrase_append h (by decide) hop
      exact ⟨.negate inner', by simp [kinds, hinner']⟩
    | powerNegate base exponent =>
      obtain ⟨exponent', hexponent'⟩ := exponent.phrase_append h (by decide) hop
      exact ⟨.powerNegate base exponent', by simp [kinds, hexponent']⟩
  | .power, _, hs, _ => absurd hs (by decide)
  | .atom, _, hs, _ => absurd hs (by decide)

end Derivation

theorem Phrase.number (x : Float) : Phrase .atom [.number x] := ⟨.number x, by rw [Derivation.kinds]⟩

theorem Phrase.name (word : String) : Phrase .atom [.word word] := ⟨.name word, by rw [Derivation.kinds]⟩

theorem Phrase.bracket (shape : Bracket) (h : Phrase .sum ks) :
    Phrase .atom (.opening shape :: (ks ++ [.closing shape])) := by
  obtain ⟨d, rfl⟩ := h
  exact ⟨.bracket shape d, by rw [Derivation.kinds]⟩

theorem Phrase.call_nil (word : String) : Phrase .atom [.word word, .opening .round, .closing .round] :=
  ⟨.call word [], by rw [Derivation.kinds, Derivation.argumentKinds]⟩

/-- Sums with commas and one more argument or more are arguments. -/
theorem Listed.append (h : Listed ks) {args : List (Derivation .sum)} (hargs : args ≠ []) :
    ∃ all, all ≠ [] ∧ Derivation.argumentKinds all = ks ++ Derivation.argumentKinds args := by
  induction h generalizing args with
  | nil => exact ⟨args, hargs, rfl⟩
  | concat _ hp ih =>
    obtain ⟨d, rfl⟩ := hp
    obtain ⟨second, others, rfl⟩ := List.exists_cons_of_ne_nil hargs
    obtain ⟨all, hall, hkinds⟩ := ih (List.cons_ne_nil d (second :: others))
    exact ⟨all, hall, by rw [hkinds, Derivation.argumentKinds_cons]; simp⟩

theorem Phrase.call (word : String) (hargs : Listed args) (h : Phrase .sum ks) :
    Phrase .atom (.word word :: .opening .round :: (args ++ (ks ++ [.closing .round]))) := by
  obtain ⟨d, rfl⟩ := h
  obtain ⟨all, -, hall⟩ := hargs.append (List.cons_ne_nil d [])
  exact ⟨.call word all, by rw [Derivation.kinds, hall, Derivation.argumentKinds]⟩

theorem Awaits.nil : Awaits [] := fun _ h => h.sum

theorem Awaits.minus (h : Awaits p) : Awaits (p ++ [.operator .subtract]) := by
  intro ks hks
  simpa using h _ hks.minus

/-- Behind a sum any operator may follow. -/
theorem Phrase.awaits (h : Phrase .sum ks) (op : Operator) : Awaits (ks ++ [.operator op]) := by
  intro operand hoperand
  obtain ⟨d, rfl⟩ := h
  rw [List.append_assoc]
  exact d.phrase_append hoperand (by decide) (by cases op <;> decide)

end Phrases

section Means

variable {o o' : Outline} {opened : List Opening} {pre p ks : List Token.Kind} {token : Token} {tokens : List Token}

theorem means_enter (h : Held opened pre) (hp : Awaits p) (hstep : enter opened token = some o') :
    Means o' (pre ++ (p ++ [token.kind])) := by
  obtain ⟨kind, position⟩ := token
  cases kind with
  | number x =>
    cases hstep
    exact .done h (hp _ (.atom (Phrase.number x)))
  | word word =>
    cases hstep
    exact .name word h hp
  | operator op =>
    cases op with
    | subtract =>
      cases hstep
      exact .operand h hp.minus
    | _ => cases hstep
  | opening shape =>
    cases hstep
    simpa using Means.operand (.group shape position h hp) Awaits.nil
  | closing shape => cases hstep
  | comma => cases hstep

/-- A closing bracket turns what stands between it and its opening one into an operand. -/
theorem means_close {opening : Opening} {outer : List Opening} (h : Held (opening :: outer) pre) (hp : Phrase .sum p) :
    Means ⟨outer, .done⟩ (pre ++ (p ++ [.closing opening.shape])) := by
  cases h with
  | group shape position h hq => simpa using Means.done h (hq _ (.atom (Phrase.bracket shape hp)))
  | call word position h hq hargs => simpa using Means.done h (hq _ (.atom (Phrase.call word hargs hp)))

theorem means_leave (h : Held opened pre) (hp : Phrase .sum p) (hstep : leave opened token = some o') :
    Means o' (pre ++ (p ++ [token.kind])) := by
  obtain ⟨kind, position⟩ := token
  cases kind with
  | operator op =>
    cases hstep
    exact .operand h (hp.awaits op)
  | closing shape =>
    cases opened with
    | nil => cases hstep
    | cons opening outer =>
      rw [leave_closing] at hstep
      obtain ⟨rfl, hstep'⟩ := Option.ite_none_right_eq_some.mp hstep
      cases hstep'
      exact means_close h hp
  | comma =>
    cases h with
    | nil => cases hstep
    | group => cases hstep
    | call word position' h hq hargs =>
      cases hstep
      simpa using Means.operand (.call word position' h hq (hargs.concat hp)) Awaits.nil
  | _ => cases opened <;> cases hstep

/-- Whatever an outline says is kept up by a token. -/
theorem Means.advance (h : Means o ks) (hstep : advance o token = some o') : Means o' (ks ++ [token.kind]) := by
  cases h with
  | operand h hp =>
    rw [List.append_assoc]
    exact means_enter h hp hstep
  | argument word position h hp =>
    by_cases hkind : token.kind = .closing .round
    · obtain ⟨kind, position'⟩ := token
      cases hkind
      cases hstep
      simpa using Means.done h (hp _ (.atom (Phrase.call_nil word)))
    · rw [Outline.advance, if_neg hkind] at hstep
      simpa using means_enter (.call word position h hp .nil) Awaits.nil hstep
  | name word h hp =>
    by_cases hkind : token.kind = .opening .round
    · rw [Outline.advance, if_pos hkind] at hstep
      cases hstep
      rw [hkind]
      simpa using Means.argument word token.position h hp
    · rw [Outline.advance, if_neg hkind] at hstep
      simpa using means_leave h (hp _ (.atom (Phrase.name word))) hstep
  | done h hp =>
    rw [List.append_assoc]
    exact means_leave h hp hstep

theorem Means.run (h : Means o ks) (hrun : run o tokens = some o') : Means o' (ks ++ tokens.map Token.kind) := by
  induction tokens generalizing o ks with
  | nil =>
    cases hrun
    simpa using h
  | cons token tokens ih =>
    obtain ⟨o₁, hstep, hrun'⟩ := Option.bind_eq_some_iff.mp hrun
    simpa using ih (h.advance hstep) hrun'

theorem means_start : Means start [] := .operand .nil .nil

/-! ## Completions -/

/-- Closing all open brackets completes a sum. -/
theorem Held.viable (h : Held opened pre) (hp : Phrase .sum p) : Viable (pre ++ p) := by
  induction opened generalizing pre p with
  | nil =>
    cases h
    exact ⟨[], by simpa using hp⟩
  | cons opening outer ih =>
    -- With the innermost bracket closed there is a sum in the next one.
    have hclose := means_close h hp
    generalize hks : pre ++ (p ++ [.closing opening.shape]) = ks at hclose
    cases hclose with
    | done h' hp' =>
      obtain ⟨more, hmore⟩ := ih h' hp'
      rw [← hks] at hmore
      exact ⟨.closing opening.shape :: more, by simpa using hmore⟩

theorem Viable.of_append {more : List Token.Kind} (h : Viable (ks ++ more)) : Viable ks := by
  obtain ⟨rest, hrest⟩ := h
  exact ⟨more ++ rest, by rwa [← List.append_assoc]⟩

theorem Means.viable (h : Means o ks) : Viable ks := by
  cases h with
  | @operand _ pre p h hp =>
    have hnumber := h.viable (hp _ (.atom (Phrase.number 0)))
    rw [← List.append_assoc] at hnumber
    exact hnumber.of_append
  | @argument _ pre p word position h hp =>
    have hcall : Viable (pre ++ (p ++ [.word word, .opening .round]) ++ [.closing .round]) := by
      simpa using h.viable (hp _ (.atom (Phrase.call_nil word)))
    exact hcall.of_append
  | name word h hp => exact h.viable (hp _ (.atom (Phrase.name word)))
  | done h hp => exact h.viable hp

/-- **Tokens have an outline iff a sum begins with them.** -/
theorem viable_iff : Viable (tokens.map Token.kind) ↔ ∃ o, run start tokens = some o := by
  constructor
  · -- What is missing may stand at any position, since outlines only look at kinds.
    rintro ⟨more, d, hd⟩
    have htokens : (tokens ++ more.map fun k => (⟨k, 0⟩ : Token)).map Token.kind = d.kinds := by
      rw [hd, List.map_append, List.map_map]
      exact congrArg (tokens.map Token.kind ++ ·) (List.map_id more)
    obtain ⟨o', hrun, -⟩ := d.spans _ htokens start (Or.inl rfl)
    rw [run_append] at hrun
    obtain ⟨o, ho, -⟩ := Option.bind_eq_some_iff.mp hrun
    exact ⟨o, ho⟩
  · rintro ⟨o, hrun⟩
    exact (means_start.run hrun).viable

theorem Means.phrase {phase : Phase} (h : Means ⟨[], phase⟩ ks) (hphase : phase = .name ∨ phase = .done) :
    Phrase .sum ks := by
  cases h with
  | operand => simp at hphase
  | name word h hp =>
    cases h
    exact hp _ (.atom (Phrase.name word))
  | done h hp =>
    cases h
    exact hp

/-- Tokens are a sum iff they end behind an operand with no bracket open. -/
theorem phrase_iff :
    Phrase .sum (tokens.map Token.kind) ↔ ∃ o, run start tokens = some o ∧ o.opened = [] ∧ o.Settled := by
  constructor
  · rintro ⟨d, hd⟩
    exact d.spans tokens hd.symm start (Or.inl rfl)
  · rintro ⟨⟨opened, phase⟩, hrun, rfl, hsettled⟩
    exact (means_start.run hrun).phrase hsettled

end Means
end ParetoSweep
