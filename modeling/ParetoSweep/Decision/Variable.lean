import ParetoSweep.Decision.Value
import ParetoSweep.Number.Order

/-!
# Decision variables

A variable ranges over finitely many points: both answers to a yes/no question, the integers between two bounds, or the
real numbers that a fixed increment reaches between two bounds. `domainSize?` counts the points from the bounds alone,
and `valueAt?` computes a point from its index.
-/

namespace ParetoSweep

/-- The largest count that a machine word holds. -/
def countLimit : Nat := 18446744073709551615

/-- A decision and the values it can take. -/
inductive Variable where
  | binary
  | integer (lower upper : Int64)
  | real (lower upper increment : Float)
deriving DecidableEq

/-- The kinds of variables. -/
inductive Variable.Kind where
  | binary
  | integer
  | real
deriving DecidableEq, Repr

/-- The name of a kind. -/
def Variable.Kind.text : Variable.Kind → String
  | binary => "BINARY"
  | integer => "INTEGER"
  | real => "REAL"

namespace Variable

/-- The increment of a real variable for which none is given, `1 / 64`. -/
def defaultIncrement : Float := 0.015625

/-- The same variable with another increment, which only a real variable has. -/
def withIncrement (v : Variable) (increment : Float) : Variable :=
  match v with
  | real lower upper _ => real lower upper increment
  | _ => v

/-- The kind of a variable. -/
def kind : Variable → Kind
  | binary => .binary
  | integer .. => .integer
  | real .. => .real

/-- The lower bound as a double. -/
def lowerBound : Variable → Float
  | binary => 0.0
  | integer lower _ => .ofInt lower.toInt
  | real lower _ _ => lower

/-- The upper bound as a double. -/
def upperBound : Variable → Float
  | binary => 1.0
  | integer _ upper => .ofInt upper.toInt
  | real _ upper _ => upper

/-- The distance of neighbouring points. -/
def increment : Variable → Float
  | binary => 1.0
  | integer .. => 1.0
  | real _ _ increment => increment

/-- How many points lie between the bounds, none if they are the wrong way round; no answer if a machine word does not
hold the count. -/
def domainSize? : Variable → Option Nat
  | binary => some 2
  | integer lower upper =>
    let size := upper.toInt - lower.toInt + 1
    if size ≤ 0 then some 0
    else if size ≤ countLimit then some size.toNat
    else none
  | real lower upper increment =>
    if lower ≤ upper ∧ 0 < increment then
      let steps := Number.floor ((upper - lower) / increment)
      if steps.isFinite ∧ steps < 18446744073709551616.0 then some (steps.toUInt64.toNat + 1) else none
    else some 0

/-- Whether the increment still moves the bound that is farther from zero. -/
def stepsAcrossBounds : Variable → Bool
  | binary => true
  | integer .. => true
  | real lower upper increment =>
    let widest := Number.larger lower.abs upper.abs
    widest + increment != widest

/-- The point with a given index, counted from zero; indices beyond the domain go on past the upper bound, and there is
no value where an integer would leave the signed 64-bit range. -/
def valueAt? (v : Variable) (index : UInt64) : Option Value :=
  match v with
  | binary => some (.binary (index != 0))
  | integer lower _ =>
    let n := lower.toInt + index.toInt64.toInt
    if Int64.minValue.toInt ≤ n ∧ n ≤ Int64.maxValue.toInt then some (.integer (.ofInt n)) else none
  | real lower _ increment => some (.real (lower + index.toFloat * increment))

/-- The value of the variable's kind that a double stands for. -/
def valueOf (v : Variable) (x : Float) : Value :=
  match v with
  | binary => .binary (x != 0.0)
  | integer .. => .integer (Number.truncated x)
  | real .. => .real x

/-- A variable in writing. -/
def text : Variable → String
  | binary => "Binary Variable"
  | integer lower upper => s!"Integer ({lower.toInt} <= x <= {upper.toInt})"
  | real lower upper _ => s!"Real ({Number.hundredthsText lower} <= x <= {Number.hundredthsText upper})"

end Variable
end ParetoSweep
