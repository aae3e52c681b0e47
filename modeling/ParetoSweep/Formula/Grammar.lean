import ParetoSweep.Formula.Term
import ParetoSweep.Formula.Token

/-!
# From tokens to terms

An expression is an operand followed by operators and their right operands. Operators are taken as long as they bind at
least as tightly as the expression asks for, and a right operand asks for one rank more than its operator, which makes
all operators group to the left.

Every expression has some `room`: it is what is left of the depth limit along the path from the whole formula. Entering
an expression takes one unit and so does every operator of its chain, and what an operand used up is free again after
it. Readers hand back the tokens that they left over together with the proof that these are fewer.
-/

namespace ParetoSweep
namespace Term

/-- What was read, and fewer than `bound` tokens left over. -/
structure Parsed (α : Type) (bound : Nat) where
  value : α
  rest : List Token
  fits : rest.length < bound

/-- A reader takes at least one token. -/
abbrev Reader (α : Type) := (tokens : List Token) → Except Fault (Parsed α tokens.length)

namespace Parsed

/-- The same result, seen from a text with more tokens. -/
def widen {α : Type} {bound wider : Nat} (p : Parsed α bound) (h : bound ≤ wider) : Parsed α wider :=
  ⟨p.value, p.rest, Nat.lt_of_lt_of_le p.fits h⟩

/-- The same tokens left over after another value. -/
def map {α β : Type} {bound : Nat} (f : α → β) (p : Parsed α bound) : Parsed β bound :=
  ⟨f p.value, p.rest, p.fits⟩

end Parsed

/-- A token that cannot stand where it stands. -/
def unexpected (token : Token) : Fault := .unexpectedToken token.kind.text token.position

/-- A name that is not called: a constant or a variable. -/
def ofName (name : String) : Term :=
  match constant? name with
  | some value => .number value
  | none => .named name

/-- One argument or more, separated by commas, up to the bracket that ends the call opened at `opened`. -/
def arguments (read : Reader Term) (opened : Nat) (tokens : List Token) :
    Except Fault (Parsed (List Term) tokens.length) := do
  let first ← read tokens
  match h : first.rest with
  | [] => throw .unexpectedEnd
  | token :: rest =>
    have shorter : rest.length < tokens.length :=
      Nat.lt_trans (Nat.lt_succ_self rest.length) (by simpa [h] using first.fits)
    match token.kind with
    | .comma =>
      let others ← arguments read opened rest
      return (others.map (first.value :: ·)).widen (Nat.le_of_lt shorter)
    | .closing .round => return ⟨[first.value], rest, shorter⟩
    | .closing found => throw (.mismatchedBracket opened found token.position)
    | _ => throw (unexpected token)
termination_by tokens.length

/-- The arguments of a call, possibly none, whose bracket was opened at `opened`. -/
def callArguments (read : Reader Term) (opened : Nat) : Reader (List Term)
  | ⟨.closing .round, _⟩ :: rest => .ok ⟨[], rest, Nat.lt_succ_self _⟩
  | tokens => arguments read opened tokens

/-- The rest of a call after the bracket opened at `opened`; the number of arguments is looked at last. -/
def callOf (read : Reader Term) (function : Builtin) (opened : Nat) : Reader Term := fun tokens => do
  let args ← callArguments read opened tokens
  if function.arity.admits args.value.length then return args.map (.call function)
  else throw (.wrongArity function args.value.length)

/-- The bracket that closes the one opened at `opened`. -/
def closing (bracket : Bracket) (opened : Nat) : Reader Unit
  | [] => .error .unexpectedEnd
  | token :: rest =>
    match token.kind with
    | .closing found =>
      if found = bracket then .ok ⟨(), rest, Nat.lt_succ_self _⟩
      else .error (.mismatchedBracket opened found token.position)
    | _ => .error (unexpected token)

/-- An operand: a number, a name, a call, an expression in brackets, or one after a minus sign. Inner expressions are
left to `read`, which is told how tightly their operators have to bind. -/
def operand (read : (rank : Nat) → Reader Term) : Reader Term
  | [] => .error .unexpectedEnd
  | ⟨.number value, _⟩ :: rest => .ok ⟨.number value, rest, Nat.lt_succ_self _⟩
  | ⟨.operator .subtract, _⟩ :: rest => do
    let inner ← read Operator.negationRank rest
    return (inner.map .negate).widen (Nat.le_succ _)
  | ⟨.word name, _⟩ :: ⟨.opening .round, opened⟩ :: rest =>
    match Builtin.ofName? name with
    | none => .error (.unknownFunction name)
    | some function => do
      let call ← callOf (read 1) function opened rest
      return call.widen (Nat.le_succ_of_le (Nat.le_succ _))
  | ⟨.word name, _⟩ :: rest => .ok ⟨ofName name, rest, Nat.lt_succ_self _⟩
  | ⟨.opening bracket, opened⟩ :: rest => do
    let inner ← read 1 rest
    let close ← closing bracket opened inner.rest
    return (close.map fun _ => inner.value).widen (Nat.le_succ_of_le (Nat.le_of_lt inner.fits))
  | token :: _ => .error (unexpected token)

mutual

/-- An expression whose operators have at least the given rank. -/
def expression : (room rank : Nat) → Reader Term
  | 0, _, _ => .error .tooDeep
  | room + 1, rank, tokens => do
    let first ← operand (expression room) tokens
    let whole ← chain room rank first.value first.rest
    return whole.widen first.fits

/-- The operators that follow a left operand, with their right operands. -/
def chain : (room rank : Nat) → (left : Term) → (tokens : List Token) →
    Except Fault (Parsed Term (tokens.length + 1))
  | room, rank, left, ⟨.operator op, position⟩ :: rest =>
    if op.rank < rank then .ok ⟨left, ⟨.operator op, position⟩ :: rest, Nat.lt_succ_self _⟩
    else
      match room with
      | 0 => .error .tooDeep
      | room + 1 => do
        let right ← expression room (op.rank + 1) rest
        let whole ← chain room rank (.binary op left right.value) right.rest
        return whole.widen (Nat.le_succ_of_le (Nat.le_succ_of_le right.fits))
  | _, _, left, tokens => .ok ⟨left, tokens, Nat.lt_succ_self _⟩

end

/-- The term of a whole sequence of tokens. -/
def ofTokens (tokens : List Token) : Except Fault Term :=
  if tokens.isEmpty then .error .empty
  else do
    let whole ← expression depthLimit 1 tokens
    match whole.rest with
    | [] => return whole.value
    | token :: _ => throw (unexpected token)

end Term
end ParetoSweep
