import ParetoSweep.Number.Text

/-!
# Values and assignments

An assignment gives one value to each variable, in the order of the variables. In formulas every value is a double
(`Value.decode`); in writing a yes/no decision is one binary digit.
-/

namespace ParetoSweep

/-- The value of one decision. -/
inductive Value where
  | binary (bit : Bool)
  | integer (n : Int64)
  | real (x : Float)
deriving DecidableEq

namespace Value

/-- The double that formulas see. -/
def decode : Value → Float
  | binary bit => if bit then 1.0 else 0.0
  | integer n => .ofInt n.toInt
  | real x => x

/-- A value in writing. -/
def text : Value → String
  | binary bit => if bit then "1" else "0"
  | integer n => toString n.toInt
  | real x => Number.text x

end Value

/-- One value for each variable. -/
abbrev Assignment := List Value

namespace Assignment

/-- The doubles that formulas see. -/
def decoded (a : Assignment) : List Float := a.map Value.decode

/-- The values in writing, one after the other; for yes/no decisions this is a bit string. -/
def bitString (a : Assignment) : String := String.join (a.map Value.text)

end Assignment
end ParetoSweep
