import ParetoSweep.Decision.Variable
import ParetoSweep.Problem.Relation

/-!
# Problems

A problem asks for the best choices among finitely many. Its objectives and constraints are formulas over `x1`, `x2`
and so on, which stand for the variables in their order.
-/

namespace ParetoSweep

/-- Which values of an objective are good. -/
inductive Sense where
  | minimize
  | maximize
deriving DecidableEq, Repr

namespace Sense

/-- A sense in writing. -/
def text : Sense → String
  | minimize => "minimize"
  | maximize => "maximize"

/-- The value of an objective turned so that smaller is better. -/
def oriented : Sense → Float → Float
  | minimize, x => x
  | maximize, x => -x

end Sense

/-- A formula to make small or large. -/
structure Objective where
  sense : Sense
  expression : String
deriving DecidableEq, Repr

/-- An objective in writing. -/
def Objective.text (o : Objective) : String := s!"{o.sense.text}({o.expression})"

/-- Two formulas and the relation between them. -/
structure Constraint where
  left : String
  relation : Relation
  right : String
deriving DecidableEq, Repr

/-- A constraint in writing. -/
def Constraint.text (c : Constraint) : String := s!"{c.left} {c.relation.symbol} {c.right}"

/-- A named problem. -/
structure Problem where
  name : String
  decisions : List Variable
  objectives : List Objective
  constraints : List Constraint

/-- The name of the variable with a given index, counted from zero. -/
def variableName (index : Nat) : String := "x" ++ toString (index + 1)

/-- The name of a variable, unless its number is beyond a machine word. -/
def variableName? (index : Nat) : Option String := if index < countLimit then some (variableName index) else none

namespace Problem

/-- The number of variables. -/
def dimension (p : Problem) : Nat := p.decisions.length

/-- The kinds of the variables, in order. -/
def kinds (p : Problem) : List Variable.Kind := p.decisions.map Variable.kind

/-- Whether all variables are yes/no decisions. -/
def allBinary (p : Problem) : Bool := p.decisions.all fun v => v.kind == .binary

/-- The names of the variables, in order. -/
def names (p : Problem) : List String := (List.range p.dimension).map variableName

/-- Numbered lines, counted from one. -/
def numbered (label : String) (texts : List String) : String :=
  String.join ((texts.zipIdx 1).map fun (text, i) => s!"{label}({i}): {text}\n")

/-- A problem in writing: the objectives, the constraints if there are any, and the domains of the variables. -/
def summary (p : Problem) : String :=
  numbered "f" (p.objectives.map Objective.text)
    ++ (if p.constraints.isEmpty then "" else "\nSubject To:\n")
    ++ String.join (p.constraints.map fun c => c.text ++ "\n")
    ++ "\nProblem Domain:\n"
    ++ numbered "x" (p.decisions.map Variable.text)

end Problem
end ParetoSweep
