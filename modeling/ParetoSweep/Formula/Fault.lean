import ParetoSweep.Formula.Builtin

/-!
# What can be wrong with a formula

Reading a formula has nine causes of failure and evaluating it one, an unknown name. Positions are byte offsets into
the text of the formula.
-/

namespace ParetoSweep

/-- A shape of bracket. -/
inductive Bracket where
  | round
  | square
deriving DecidableEq, Repr

namespace Bracket

/-- The opening sign. -/
def opening : Bracket → Char
  | round => '('
  | square => '['

/-- The closing sign. -/
def closing : Bracket → Char
  | round => ')'
  | square => ']'

end Bracket

/-- How deep formulas may nest and how long their chains of operators may be, together along one path. -/
def depthLimit : Nat := 512

/-- Why a formula cannot be read or evaluated. -/
inductive Fault where
  | empty
  | unexpectedChar (found : Char) (position : Nat)
  | invalidNumber (text : String) (position : Nat)
  | unexpectedToken (found : String) (position : Nat)
  | unexpectedEnd
  | mismatchedBracket (opened : Nat) (found : Bracket) (position : Nat)
  | unknownFunction (name : String)
  | wrongArity (function : Builtin) (found : Nat)
  | unknownName (name : String)
  | tooDeep
deriving DecidableEq, Repr

namespace Fault

/-- A fault in words. -/
def message : Fault → String
  | empty => "empty expression"
  | unexpectedChar found position => s!"unexpected character '{found}' at position {position}"
  | invalidNumber text position => s!"invalid number '{text}' at position {position}"
  | unexpectedToken found position => s!"unexpected '{found}' at position {position}"
  | unexpectedEnd => "unexpected end of expression"
  | mismatchedBracket opened found position =>
    s!"bracket opened at position {opened} is closed by '{found.closing}' at position {position}"
  | unknownFunction name => s!"unknown function '{name}'"
  | wrongArity function found =>
    s!"function '{function.name}' expects {function.arity.words} argument(s), got {found}"
  | unknownName name => s!"unknown variable or constant '{name}'"
  | tooDeep => s!"expression nests or chains more than {depthLimit} levels"

end Fault
end ParetoSweep
