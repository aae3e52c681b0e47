import ParetoSweep.Proofs.Bind
import ParetoSweep.Formula.Grammar

/-!
# What readers do

A reader hands back a proof along with what it read. `outcome` leaves the proof out, and the equations of this module
tell for each reader what its outcome is in terms of the outcomes of the readers it calls.
-/

namespace ParetoSweep
namespace Term

/-- What was read and what is left over. -/
def outcome {α : Type} {bound : Nat} (x : Except Fault (Parsed α bound)) : Except Fault (α × List Token) :=
  x.map fun p => (p.value, p.rest)

section Outcome

variable {α β : Type} {n m : Nat}

theorem outcome_bind_map (x : Except Fault (Parsed α n)) (f : α → β) (h : n ≤ m) :
    outcome (x >>= fun p => .ok ((p.map f).widen h)) = outcome x >>= fun r => .ok (f r.1, r.2) := by
  cases x <;> rfl

theorem outcome_bind_widen (x : Except Fault (Parsed α n)) (h : n ≤ m) :
    outcome (x >>= fun p => .ok (p.widen h)) = outcome x := by
  cases x <;> rfl

end Outcome

section Expression

variable {room rank : Nat} {left : Term} {op : Operator} {position : Nat} {tokens rest : List Token}

theorem outcome_expression_zero : outcome (expression 0 rank tokens) = .error .tooDeep := rfl

theorem outcome_expression_succ : outcome (expression (room + 1) rank tokens) =
    outcome (operand (expression room) tokens) >>= fun first => outcome (chain room rank first.1 first.2) := by
  rw [expression]
  cases operand (expression room) tokens with
  | error fault => rfl
  | ok first => exact outcome_bind_widen (chain room rank first.value first.rest) _

theorem outcome_chain_nil : outcome (chain room rank left []) = .ok (left, []) := by
  cases room <;> rfl

theorem outcome_chain_of_lt (h : op.rank < rank) :
    outcome (chain room rank left (⟨.operator op, position⟩ :: rest)) =
      .ok (left, ⟨.operator op, position⟩ :: rest) := by
  cases room <;> rw [chain, if_pos h] <;> rfl

theorem outcome_chain_zero (h : ¬ op.rank < rank) :
    outcome (chain 0 rank left (⟨.operator op, position⟩ :: rest)) = .error .tooDeep := by
  rw [chain, if_neg h]
  rfl

theorem outcome_chain_succ (h : ¬ op.rank < rank) :
    outcome (chain (room + 1) rank left (⟨.operator op, position⟩ :: rest)) =
      outcome (expression room (op.rank + 1) rest) >>= fun right =>
        outcome (chain room rank (.binary op left right.1) right.2) := by
  rw [chain, if_neg h]
  cases expression room (op.rank + 1) rest with
  | error fault => rfl
  | ok right => exact outcome_bind_widen (chain room rank (.binary op left right.value) right.rest) _

/-- Nothing but an operator goes on with an expression. -/
theorem outcome_chain_of_not_operator {kind : Token.Kind} (h : ∀ op, kind ≠ .operator op) :
    outcome (chain room rank left (⟨kind, position⟩ :: rest)) = .ok (left, ⟨kind, position⟩ :: rest) := by
  cases kind with
  | operator op => exact absurd rfl (h op)
  | _ => cases room <;> rfl

end Expression

section Operand

variable {read : Nat → Reader Term} {readOne : Reader Term} {position opened : Nat} {tokens rest : List Token}

theorem outcome_operand_number (x : Float) :
    outcome (operand read (⟨.number x, position⟩ :: rest)) = .ok (.number x, rest) := rfl

theorem outcome_operand_negate : outcome (operand read (⟨.operator .subtract, position⟩ :: rest)) =
    outcome (read Operator.negationRank rest) >>= fun inner => .ok (.negate inner.1, inner.2) := by
  rw [operand]
  exact outcome_bind_map (read Operator.negationRank rest) Term.negate _

theorem outcome_operand_bracket (shape : Bracket) : outcome (operand read (⟨.opening shape, position⟩ :: rest)) =
    outcome (read 1 rest) >>= fun inner =>
      outcome (closing shape position inner.2) >>= fun close => .ok (inner.1, close.2) := by
  rw [operand]
  cases read 1 rest with
  | error fault => rfl
  | ok inner => exact outcome_bind_map (closing shape position inner.rest) (fun _ => inner.value) _

theorem outcome_operand_name (word : String) (h : ∀ p tail, rest ≠ ⟨.opening .round, p⟩ :: tail) :
    outcome (operand read (⟨.word word, position⟩ :: rest)) = .ok (ofName word, rest) := by
  rw [operand]
  · rfl
  · exact h

theorem outcome_operand_call (word : String) :
    outcome (operand read (⟨.word word, position⟩ :: ⟨.opening .round, opened⟩ :: rest)) =
      match Builtin.ofName? word with
      | none => .error (.unknownFunction word)
      | some function => outcome (callArguments (read 1) opened rest) >>= fun args =>
          if function.arity.admits args.1.length then .ok (.call function args.1, args.2)
          else .error (.wrongArity function args.1.length) := by
  rw [operand]
  cases Builtin.ofName? word with
  | none => rfl
  | some function =>
    dsimp only
    refine (outcome_bind_widen (callOf (read 1) function opened rest) _).trans ?_
    rw [callOf]
    cases callArguments (read 1) opened rest with
    | error fault => rfl
    | ok args =>
      by_cases h : function.arity.admits args.value.length = true
      · simp only [outcome, bind, Except.bind, Except.map, h, if_true]
        rfl
      · simp only [outcome, bind, Except.bind, Except.map, h]
        rfl

theorem outcome_operand_operator {op : Operator} (h : op ≠ .subtract) :
    outcome (operand read (⟨.operator op, position⟩ :: rest)) = .error (unexpected ⟨.operator op, position⟩) := by
  cases op <;> first | rfl | exact absurd rfl h

theorem outcome_closing (shape found : Bracket) : outcome (closing shape opened (⟨.closing found, position⟩ :: rest)) =
    if found = shape then .ok ((), rest) else .error (.mismatchedBracket opened found position) := by
  rw [closing]
  by_cases h : found = shape
  · simp only [if_pos h]; rfl
  · simp only [if_neg h]; rfl

theorem outcome_callArguments_nil :
    outcome (callArguments readOne opened (⟨.closing .round, position⟩ :: rest)) = .ok ([], rest) := rfl

theorem outcome_callArguments (h : ∀ p tail, tokens ≠ ⟨.closing .round, p⟩ :: tail) :
    outcome (callArguments readOne opened tokens) = outcome (arguments readOne opened tokens) := by
  rw [callArguments]
  exact h

/-- What stands after an argument tells whether another one follows. -/
theorem outcome_arguments : outcome (arguments readOne opened tokens) =
    outcome (readOne tokens) >>= fun first =>
      match first.2 with
      | [] => .error .unexpectedEnd
      | ⟨.comma, _⟩ :: rest =>
        outcome (arguments readOne opened rest) >>= fun others => .ok (first.1 :: others.1, others.2)
      | ⟨.closing .round, _⟩ :: rest => .ok ([first.1], rest)
      | ⟨.closing found, position⟩ :: _ => .error (.mismatchedBracket opened found position)
      | token :: _ => .error (unexpected token) := by
  rw [arguments]
  cases readOne tokens with
  | error fault => rfl
  | ok first =>
    obtain ⟨value, rest, fits⟩ := first
    cases rest with
    | nil => rfl
    | cons token rest =>
      obtain ⟨kind, position⟩ := token
      cases kind with
      | comma => exact outcome_bind_map (arguments readOne opened rest) (value :: ·) _
      | closing found => cases found <;> rfl
      | _ => rfl

end Operand

end Term
end ParetoSweep
