import ParetoSweep.Proofs.Formula.Outline
import ParetoSweep.Proofs.Formula.Soundness

/-!
# Where a formula goes wrong

A reader that succeeds keeps the outline of what it reads, and one that fails because of a token or the end of the
formula fails where the outline does (`Located`). Both are shown together, by induction on the room (`traced`). Because
an outline gets stuck exactly where no sum goes on, the faults of whole formulas point at the first token that cannot
stand where it stands (`pinpoints_of_ofTokens`).
-/

namespace ParetoSweep

open Term Outline

/-! ## Open brackets -/

/-- Where the brackets stand that are open, the innermost first; a closing bracket is taken for the end of the innermost
one. -/
def trackBrackets (opened : List Nat) : Token → List Nat
  | ⟨.opening _, position⟩ => position :: opened
  | ⟨.closing _, _⟩ => opened.tail
  | _ => opened

/-- Where the brackets stand that some tokens leave open, the innermost first. -/
def openBrackets (tokens : List Token) : List Nat := tokens.foldl trackBrackets []

section Brackets

variable {o o' : Outline} {token : Token} {tokens : List Token}

theorem positions_enter {opened : List Opening} (h : enter opened token = some o') :
    o'.opened.map Opening.position = trackBrackets (opened.map Opening.position) token := by
  obtain ⟨kind, position⟩ := token
  cases kind with
  | operator op =>
    cases op with
    | subtract =>
      cases h
      rfl
    | _ => cases h
  | closing shape => cases h
  | comma => cases h
  | _ =>
    cases h
    rfl

theorem positions_leave {opened : List Opening} (h : leave opened token = some o') :
    o'.opened.map Opening.position = trackBrackets (opened.map Opening.position) token := by
  obtain ⟨kind, position⟩ := token
  cases kind with
  | operator op =>
    cases h
    rfl
  | closing shape =>
    cases opened with
    | nil => cases h
    | cons opening outer =>
      rw [leave_closing] at h
      obtain ⟨-, h'⟩ := Option.ite_none_right_eq_some.mp h
      cases h'
      rfl
  | comma =>
    cases opened with
    | nil => cases h
    | cons opening outer =>
      cases opening with
      | call start =>
        cases h
        rfl
      | group shape start => cases h
  | _ =>
    -- a token that starts an operand does not follow one
    cases opened with
    | nil => cases h
    | cons opening outer => cases opening <;> cases h

/-- An outline knows where the open brackets stand. -/
theorem positions_advance (h : advance o token = some o') :
    o'.opened.map Opening.position = trackBrackets (o.opened.map Opening.position) token := by
  obtain ⟨opened, phase⟩ := o
  cases phase with
  | operand => exact positions_enter h
  | argument =>
    by_cases hkind : token.kind = .closing .round
    · exact positions_leave ((if_pos hkind).symm.trans h)
    · exact positions_enter ((if_neg hkind).symm.trans h)
  | name =>
    by_cases hkind : token.kind = .opening .round
    · obtain ⟨kind, position⟩ := token
      cases hkind
      cases h
      rfl
    · exact positions_leave ((if_neg hkind).symm.trans h)
  | done => exact positions_leave h

theorem positions_run (h : run o tokens = some o') :
    o'.opened.map Opening.position = tokens.foldl trackBrackets (o.opened.map Opening.position) := by
  induction tokens generalizing o with
  | nil =>
    cases h
    rfl
  | cons token tokens ih =>
    obtain ⟨o₁, hstep, hrun⟩ := Option.bind_eq_some_iff.mp h
    rw [List.foldl_cons, ← positions_advance hstep, ih hrun]

end Brackets

/-! ## Readers keep outlines -/

/-- Some tokens lead to an outline that one more token gets stuck. -/
def StuckAt (o : Outline) (tokens : List Token) (token : Token) (stuck : Outline) : Prop :=
  ∃ front rest, tokens = front ++ token :: rest ∧ run o front = some stuck ∧ advance stuck token = none

/-- A fault is where the outline says. -/
def Located (o : Outline) (tokens : List Token) : Fault → Prop
  | .unexpectedEnd => ∃ o', run o tokens = some o' ∧ (o'.Due ∨ o'.opened ≠ [])
  | .unexpectedToken found position =>
    ∃ token stuck, StuckAt o tokens token stuck ∧ found = token.kind.text ∧ position = token.position
  | .mismatchedBracket opened found position => ∃ stuck, StuckAt o tokens ⟨.closing found, position⟩ stuck ∧
      (stuck.opened.map Opening.position).head? = some opened
  | _ => True

/-- An operand is due, and no bracket ends a call instead. -/
def StartsOperand (o : Outline) (tokens : List Token) : Prop :=
  o.phase = .operand ∨ o.phase = .argument ∧ ∀ p tail, tokens ≠ ⟨.closing .round, p⟩ :: tail

/-- An operand has ended, and no bracket of a call follows. -/
def EndsOperand (o : Outline) (rest : List Token) : Prop :=
  o.phase = .done ∨ o.phase = .name ∧ ∀ p tail, rest ≠ ⟨.opening .round, p⟩ :: tail

/-- What was read leaves the outline behind an operand in some brackets, or the fault is where the outline says. -/
def Traced {α : Type} (o : Outline) (tokens : List Token) (opened : List Opening) :
    Except Fault (α × List Token) → Prop
  | .ok (_, rest) => ∃ front o', tokens = front ++ rest ∧ run o front = some o' ∧ o'.opened = opened ∧
      EndsOperand o' rest
  | .error fault => Located o tokens fault

section Located

variable {o o' : Outline} {front tokens rest : List Token} {token : Token} {fault : Fault} {α : Type}
  {opened : List Opening}

theorem StuckAt.append {stuck : Outline} (hrun : run o front = some o') (h : StuckAt o' tokens token stuck) :
    StuckAt o (front ++ tokens) token stuck := by
  obtain ⟨front', rest, rfl, hrun', hstuck⟩ := h
  exact ⟨front ++ front', rest, by simp, by rw [run_append, hrun, Option.bind_some, hrun'], hstuck⟩

/-- What was read before does not matter. -/
theorem Located.append (hrun : run o front = some o') (h : Located o' tokens fault) :
    Located o (front ++ tokens) fault := by
  cases fault with
  | unexpectedEnd =>
    obtain ⟨o'', hrun', hdue⟩ := h
    exact ⟨o'', by rw [run_append, hrun, Option.bind_some, hrun'], hdue⟩
  | unexpectedToken found position =>
    obtain ⟨token, stuck, hstuck, htoken⟩ := h
    exact ⟨token, stuck, hstuck.append hrun, htoken⟩
  | mismatchedBracket opened found position =>
    obtain ⟨stuck, hstuck, hopened⟩ := h
    exact ⟨stuck, hstuck.append hrun, hopened⟩
  | _ => trivial

theorem Traced.append {x : Except Fault (α × List Token)} (hrun : run o front = some o')
    (h : Traced o' tokens opened x) : Traced o (front ++ tokens) opened x := by
  cases x with
  | error fault => exact Located.append hrun h
  | ok r =>
    obtain ⟨front', o'', rfl, hrun', hrest⟩ := h
    exact ⟨front ++ front', o'', by simp, by rw [run_append, hrun, Option.bind_some, hrun'], hrest⟩

/-- A token that cannot follow. -/
theorem located_unexpected (h : advance o token = none) : Located o (token :: rest) (unexpected token) :=
  ⟨token, o, ⟨[], rest, rfl, rfl, h⟩, rfl, rfl⟩

theorem Traced.ok {a : α} (h : EndsOperand o rest) : Traced o rest o.opened (.ok (a, rest)) :=
  ⟨[], o, rfl, rfl, rfl, h⟩

theorem Traced.bind {β : Type} {x : Except Fault (α × List Token)} {f : α × List Token → Except Fault (β × List Token)}
    {inner : List Opening} (h : Traced o tokens inner x)
    (hf : ∀ a rest o', x = .ok (a, rest) → o'.opened = inner → EndsOperand o' rest →
      Traced o' rest opened (f (a, rest))) : Traced o tokens opened (x >>= f) := by
  cases x with
  | error fault => exact h
  | ok r =>
    obtain ⟨front, o', rfl, hrun, hopened, hends⟩ := h
    exact (hf r.1 r.2 o' rfl hopened hends).append hrun

theorem Traced.map {β : Type} {x : Except Fault (α × List Token)} (f : α → β) (h : Traced o tokens opened x) :
    Traced o tokens opened (x >>= fun r => .ok (f r.1, r.2)) := by
  refine h.bind fun a rest o' _ hopened hends => ?_
  rw [← hopened]
  exact .ok hends

theorem Traced.cons {x : Except Fault (α × List Token)} (hstep : advance o token = some o')
    (h : Traced o' tokens opened x) : Traced o (token :: tokens) opened x := by
  have hrun : run o [token] = some o' := by rw [run_singleton, hstep]
  exact h.append hrun

/-- Where an operand is due, only what may start an operand goes on. -/
theorem StartsOperand.advance (h : StartsOperand o (token :: rest)) : advance o token = enter o.opened token := by
  unfold Outline.advance
  rcases h with h | ⟨h, hne⟩
  · rw [h]
  · rw [h]
    refine if_neg fun hkind => hne token.position rest ?_
    rw [← hkind]

theorem StartsOperand.due (h : StartsOperand o tokens) : o.Due := h.imp_right And.left

/-- Behind an operand, only what may follow an operand goes on. -/
theorem EndsOperand.advance (h : EndsOperand o (token :: rest)) : advance o token = leave o.opened token := by
  unfold Outline.advance
  rcases h with h | ⟨h, hne⟩
  · rw [h]
  · rw [h]
    refine if_neg fun hkind => hne token.position rest ?_
    rw [← hkind]

end Located

/-- With some room, expressions keep outlines. -/
def TracedExpression (room : Nat) : Prop :=
  ∀ rank tokens o, StartsOperand o tokens → Traced o tokens o.opened (outcome (expression room rank tokens))

/-- With some room, chains of operators keep outlines. -/
def TracedChain (room : Nat) : Prop :=
  ∀ rank left tokens o, EndsOperand o tokens → Traced o tokens o.opened (outcome (chain room rank left tokens))

section Readers

variable {room : Nat} {o : Outline} {tokens rest : List Token} {opened : Nat} {outer : List Opening} {t : Term}

/-- No operator follows an expression in brackets. -/
theorem ends_of_outcome (h : outcome (expression room 1 tokens) = .ok (t, rest)) : Ends 1 rest := by
  obtain ⟨-, -, hends, -⟩ := (sound room).1 1 _ _ _ (Or.inl (by decide)) h
  exact hends

theorem not_ends_one (op : Operator) (position : Nat) : ¬ Ends 1 (⟨.operator op, position⟩ :: rest) := by
  show ¬ op.rank < 1
  cases op <;> decide

theorem tracedChain_zero : TracedChain 0 := by
  intro rank left tokens o ho
  rcases ends_or_operator rank tokens with hstop | ⟨op, position, tail, rfl, hop⟩
  · rw [chain_ends hstop]
    exact .ok ho
  · rw [outcome_chain_zero hop]
    trivial

theorem tracedChain_succ (hexpression : TracedExpression room) (hchain : TracedChain room) :
    TracedChain (room + 1) := by
  intro rank left tokens o ho
  rcases ends_or_operator rank tokens with hstop | ⟨op, position, tail, rfl, hop⟩
  · rw [chain_ends hstop]
    exact .ok ho
  · rw [outcome_chain_succ hop]
    refine Traced.cons ho.advance ((hexpression _ tail ⟨o.opened, .operand⟩ (Or.inl rfl)).bind ?_)
    intro right rest o' _ hopened hends
    rw [show o.opened = o'.opened from hopened.symm]
    exact hchain rank _ rest o' hends

/-- Only the right bracket closes a group. -/
theorem traced_closing {shape : Bracket} {position : Nat} (ho : EndsOperand o tokens)
    (hopened : o.opened = .group shape position :: outer) (hends : Ends 1 tokens) :
    Traced o tokens outer (outcome (closing shape position tokens)) := by
  rcases tokens with _ | ⟨⟨kind, position'⟩, rest⟩
  · exact ⟨o, rfl, Or.inr (by rw [hopened]; nofun)⟩
  · have hadvance := ho.advance
    rw [hopened] at hadvance
    cases kind with
    | operator op => exact absurd hends (not_ends_one op position')
    | closing found =>
      rw [outcome_closing]
      rw [leave_closing, Opening.shape] at hadvance
      split
      · rename_i heq
        rw [if_pos heq.symm] at hadvance
        exact ⟨[_], _, rfl, by rw [run_singleton, hadvance], rfl, Or.inl rfl⟩
      · rename_i hne
        rw [if_neg (Ne.symm hne)] at hadvance
        exact ⟨o, ⟨[], rest, rfl, rfl, hadvance⟩, by rw [hopened]; rfl⟩
    | _ => exact located_unexpected hadvance

/-- Arguments are separated by commas and closed by a round bracket. -/
theorem traced_arguments (hexpression : TracedExpression room) {o : Outline} {tokens : List Token}
    (ho : StartsOperand o tokens) (hopened : o.opened = .call opened :: outer) :
    Traced o tokens outer (outcome (arguments (expression room 1) opened tokens)) := by
  rw [outcome_arguments]
  refine (hexpression 1 tokens o ho).bind fun first rest o' hfirst hopened' hends => ?_
  rw [hopened] at hopened'
  rcases rest with _ | ⟨⟨kind, position⟩, rest⟩
  · exact ⟨o', rfl, Or.inr (by rw [hopened']; nofun)⟩
  · have hadvance := hends.advance
    rw [hopened'] at hadvance
    cases kind with
    | operator op => exact absurd (ends_of_outcome hfirst) (not_ends_one op position)
    | comma =>
      -- The rest is shorter, because something was read as the first argument.
      obtain ⟨front, htokens, -⟩ := (sound room).1 1 _ _ _ (Or.inl (by decide)) hfirst
      have hshorter : rest.length < tokens.length := by
        rw [htokens, List.length_append, List.length_cons]
        omega
      exact .cons hadvance (.map _ (traced_arguments hexpression (Or.inl rfl) rfl))
    | closing found =>
      cases found with
      | round => exact ⟨[_], _, rfl, by rw [run_singleton, hadvance]; rfl, rfl, Or.inl rfl⟩
      | square => exact ⟨o', ⟨[], rest, rfl, rfl, hadvance⟩, by rw [hopened']; rfl⟩
    | _ => exact located_unexpected hadvance
termination_by tokens.length

theorem traced_callArguments (hexpression : TracedExpression room) (hphase : o.phase = .argument)
    (hopened : o.opened = .call opened :: outer) :
    Traced o tokens outer (outcome (callArguments (expression room 1) opened tokens)) := by
  by_cases hclosing : ∃ p tail, tokens = ⟨.closing .round, p⟩ :: tail
  · obtain ⟨p, tail, rfl⟩ := hclosing
    refine ⟨[_], ⟨outer, .done⟩, rfl, ?_, rfl, Or.inl rfl⟩
    rw [run_singleton, advance, hphase, hopened]
    rfl
  · have hne : ∀ p tail, tokens ≠ ⟨.closing .round, p⟩ :: tail := fun p tail h => hclosing ⟨p, tail, h⟩
    rw [outcome_callArguments hne]
    exact traced_arguments hexpression (Or.inr ⟨hphase, hne⟩) hopened

theorem traced_operand (hexpression : TracedExpression room) (ho : StartsOperand o tokens) :
    Traced o tokens o.opened (outcome (operand (expression room) tokens)) := by
  rcases tokens with _ | ⟨⟨kind, position⟩, rest⟩
  · exact ⟨o, rfl, Or.inl ho.due⟩
  · have hadvance := ho.advance
    cases kind with
    | number x => exact .cons hadvance (.ok (Or.inl rfl))
    | operator op =>
      by_cases hop : op = .subtract
      · subst hop
        rw [outcome_operand_negate]
        exact .cons hadvance (.map _ (hexpression _ rest ⟨o.opened, .operand⟩ (Or.inl rfl)))
      · rw [outcome_operand_operator hop]
        refine located_unexpected (hadvance.trans ?_)
        cases op <;> first | rfl | exact absurd rfl hop
    | word word =>
      by_cases hcall : ∃ p tail, rest = ⟨.opening .round, p⟩ :: tail
      · obtain ⟨opened, tail, rfl⟩ := hcall
        rw [outcome_operand_call]
        cases Builtin.ofName? word with
        -- An unknown name and a wrong number of arguments are no faults of syntax.
        | none => trivial
        | some function =>
          refine .cons hadvance (.cons rfl ?_)
          refine (traced_callArguments hexpression rfl rfl).bind fun args rest o' _ hopened hends => ?_
          split
          · rw [← hopened]
            exact .ok hends
          · trivial
      · have hne : ∀ p tail, rest ≠ ⟨.opening .round, p⟩ :: tail := fun p tail h => hcall ⟨p, tail, h⟩
        rw [outcome_operand_name word hne]
        exact .cons hadvance (.ok (Or.inr ⟨rfl, hne⟩))
    | opening shape =>
      rw [outcome_operand_bracket]
      refine .cons hadvance ((hexpression 1 rest _ (Or.inl rfl)).bind fun inner rest' o' hinner hopened hends => ?_)
      exact .map (fun _ => inner) (traced_closing hends hopened (ends_of_outcome hinner))
    | _ => exact located_unexpected hadvance

theorem tracedExpression_succ (hexpression : TracedExpression room) (hchain : TracedChain room) :
    TracedExpression (room + 1) := by
  intro rank tokens o ho
  rw [outcome_expression_succ]
  refine (traced_operand hexpression ho).bind fun first rest o' _ hopened hends => ?_
  rw [← hopened]
  exact hchain rank first rest o' hends

theorem traced : (room : Nat) → TracedExpression room ∧ TracedChain room
  | 0 => ⟨fun _ _ _ _ => trivial, tracedChain_zero⟩
  | room + 1 =>
    have ⟨hexpression, hchain⟩ := traced room
    ⟨tracedExpression_succ hexpression hchain, tracedChain_succ hexpression hchain⟩

/-- The faults of whole formulas are where the outline says. -/
theorem located_of_ofTokens {fault : Fault} (h : ofTokens tokens = .error fault) : Located start tokens fault := by
  by_cases hne : tokens = []
  · subst hne
    cases h
    trivial
  · rw [ofTokens_of_ne_nil hne] at h
    have htraced := (traced depthLimit).1 1 tokens start (Or.inl rfl)
    generalize hx : outcome (expression depthLimit 1 tokens) = x at h htraced
    cases x with
    | error fault' =>
      cases h
      exact htraced
    | ok r =>
      obtain ⟨t, rest⟩ := r
      obtain ⟨front, o', rfl, hrun, hopened, hends⟩ := htraced
      rcases rest with _ | ⟨⟨kind, position⟩, rest⟩
      · cases h
      · cases h
        refine Located.append hrun (located_unexpected (hends.advance.trans ?_))
        rw [hopened]
        cases kind with
        | operator op => exact absurd (ends_of_outcome hx) (not_ends_one op position)
        | _ => rfl

end Readers

/-! ## The first impossible token -/

/-- A token is the first one with which no sum goes on: a sum begins with the tokens before it, but none with these
tokens and itself. -/
def FirstImpossible (tokens : List Token) (token : Token) (before : List Token) : Prop :=
  (∃ rest, tokens = before ++ token :: rest) ∧ Viable (before.map Token.kind) ∧
    ¬ Viable ((before ++ [token]).map Token.kind)

/-- A syntax fault tells the first token that cannot stand where it stands, or that the end comes too early. -/
def Pinpoints (tokens : List Token) : Fault → Prop
  | .unexpectedEnd => ¬ Phrase .sum (tokens.map Token.kind) ∧
      ∃ more, more ≠ [] ∧ Phrase .sum (tokens.map Token.kind ++ more)
  | .unexpectedToken found position => ∃ before token, FirstImpossible tokens token before ∧
      found = token.kind.text ∧ position = token.position
  | .mismatchedBracket opened found position => ∃ before,
      FirstImpossible tokens ⟨.closing found, position⟩ before ∧ (openBrackets before).head? = some opened
  | _ => True

section Faults

variable {tokens : List Token} {token : Token} {stuck : Outline}

theorem StuckAt.firstImpossible (h : StuckAt start tokens token stuck) :
    ∃ before, FirstImpossible tokens token before ∧ openBrackets before = stuck.opened.map Opening.position := by
  obtain ⟨before, rest, htokens, hrun, hstuck⟩ := h
  refine ⟨before, ⟨⟨rest, htokens⟩, viable_iff.mpr ⟨stuck, hrun⟩, fun hviable => ?_⟩, (positions_run hrun).symm⟩
  obtain ⟨o, ho⟩ := viable_iff.mp hviable
  rw [run_append, hrun, Option.bind_some, run_singleton, hstuck] at ho
  cases ho

theorem Outline.Due.not_settled {o : Outline} (h : o.Due) : ¬ o.Settled := by
  rintro (hs | hs) <;> rcases h with h | h <;> cases h.symm.trans hs

/-- **A syntax fault points at the first token with which no sum goes on**, and the formula ends too early only if it is
the beginning of a sum but no sum itself. -/
theorem pinpoints_of_ofTokens {fault : Fault} (h : ofTokens tokens = .error fault) : Pinpoints tokens fault := by
  have hlocated := located_of_ofTokens h
  cases fault with
  | unexpectedEnd =>
    obtain ⟨o, hrun, hopen⟩ := hlocated
    have hnot : ¬ Phrase .sum (tokens.map Token.kind) := by
      rw [phrase_iff]
      rintro ⟨o', hrun', hopened, hsettled⟩
      cases hrun.symm.trans hrun'
      rcases hopen with hdue | hne
      · exact hdue.not_settled hsettled
      · exact hne hopened
    obtain ⟨more, hmore⟩ := viable_iff.mpr ⟨o, hrun⟩
    refine ⟨hnot, more, ?_, hmore⟩
    rintro rfl
    exact hnot (by simpa using hmore)
  | unexpectedToken found position =>
    obtain ⟨token, stuck, hstuck, hfound, hposition⟩ := hlocated
    obtain ⟨before, hbefore, -⟩ := hstuck.firstImpossible
    exact ⟨before, token, hbefore, hfound, hposition⟩
  | mismatchedBracket opened found position =>
    obtain ⟨stuck, hstuck, hopened⟩ := hlocated
    obtain ⟨before, hbefore, hopen⟩ := hstuck.firstImpossible
    exact ⟨before, hbefore, hopen ▸ hopened⟩
  | _ => trivial

/-- `(x]` is closed by the wrong bracket. -/
theorem pinpoints_of_ofTokens_mismatched : ∃ tokens,
    ofTokens tokens = .error (.mismatchedBracket 0 .square 2) ∧ Pinpoints tokens (.mismatchedBracket 0 .square 2) := by
  have h : ofTokens [⟨.opening .round, 0⟩, ⟨.word "x", 1⟩, ⟨.closing .square, 2⟩] =
      .error (.mismatchedBracket 0 .square 2) := rfl
  exact ⟨_, h, pinpoints_of_ofTokens h⟩

end Faults
end ParetoSweep
