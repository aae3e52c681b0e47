import ParetoSweep.Number.Remainder

/-!
# Binary operators

All binary operators group to the left; `rank` orders them by how tightly they bind. The minus sign in front of an
operand stands between products and powers (`Operator.negationRank`), so `-2^2` is `-(2^2)` and `2^-1` needs no bracket.
-/

namespace ParetoSweep

/-- An operator between two operands. -/
inductive Operator where
  | add
  | subtract
  | multiply
  | divide
  | remainder
  | power
deriving DecidableEq, Repr

namespace Operator

/-- The sign that an operator is written with. -/
def symbol : Operator → Char
  | add => '+'
  | subtract => '-'
  | multiply => '*'
  | divide => '/'
  | remainder => '%'
  | power => '^'

/-- The operator with a given sign. -/
def ofSymbol? : Char → Option Operator
  | '+' => some add
  | '-' => some subtract
  | '*' => some multiply
  | '/' => some divide
  | '%' => some remainder
  | '^' => some power
  | _ => none

/-- How tightly an operator binds; a higher rank binds tighter. -/
def rank : Operator → Nat
  | add | subtract => 1
  | multiply | divide | remainder => 2
  | power => 4

/-- How tightly the minus sign in front of an operand binds. -/
def negationRank : Nat := 3

/-- The value of an operation on doubles; a remainder has the sign of the left operand. -/
def apply : Operator → Float → Float → Float
  | add, x, y => x + y
  | subtract, x, y => x - y
  | multiply, x, y => x * y
  | divide, x, y => x / y
  | remainder, x, y => Number.remainder x y
  | power, x, y => x.pow y

/-- An operator is found by its sign. -/
theorem ofSymbol?_symbol (op : Operator) : ofSymbol? op.symbol = some op := by
  cases op <;> rfl

end Operator
end ParetoSweep
