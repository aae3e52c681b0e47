import ParetoSweep.Number.Order
import ParetoSweep.Random.Stream

/-!
# Built-in functions and constants

Every function is known by one name, except the common logarithm, which has two. `random` is the only one that looks
at the stream of random numbers.
-/

namespace ParetoSweep

/-- A function that formulas may call. -/
inductive Builtin where
  | abs
  | ceil
  | floor
  | round
  | max
  | min
  | sum
  | avg
  | random
  | sin
  | cos
  | tan
  | asin
  | acos
  | atan
  | sinh
  | cosh
  | tanh
  | ln
  | log10
  | sqrt
  | cbrt
deriving DecidableEq, Repr

/-- How many arguments a function takes. -/
inductive Arity where
  | none
  | one
  | atLeastOne
deriving DecidableEq, Repr

namespace Arity

/-- Whether `n` arguments are right. -/
def admits : Arity → Nat → Bool
  | none, n => n == 0
  | one, n => n == 1
  | atLeastOne, n => n != 0

/-- The number of arguments in words. -/
def words : Arity → String
  | none => "no"
  | one => "exactly one"
  | atLeastOne => "at least one"

end Arity

namespace Builtin

/-- The name of a function. -/
def name : Builtin → String
  | abs => "abs"
  | ceil => "ceil"
  | floor => "floor"
  | round => "round"
  | max => "max"
  | min => "min"
  | sum => "sum"
  | avg => "avg"
  | random => "random"
  | sin => "sin"
  | cos => "cos"
  | tan => "tan"
  | asin => "asin"
  | acos => "acos"
  | atan => "atan"
  | sinh => "sinh"
  | cosh => "cosh"
  | tanh => "tanh"
  | ln => "ln"
  | log10 => "log10"
  | sqrt => "sqrt"
  | cbrt => "cbrt"

/-- All functions. -/
def all : List Builtin :=
  [abs, ceil, floor, round, max, min, sum, avg, random, sin, cos, tan, asin, acos, atan, sinh, cosh, tanh, ln, log10,
    sqrt, cbrt]

/-- The function of a name; `log` is the common logarithm too. -/
def ofName? (name : String) : Option Builtin :=
  if name = "log" then some log10 else all.find? fun f => f.name == name

/-- A function is found by its name. -/
theorem ofName?_name (f : Builtin) : ofName? f.name = some f := by
  cases f <;> decide +kernel

/-- How many arguments a function takes. -/
def arity : Builtin → Arity
  | random => .none
  | max | min | sum | avg => .atLeastOne
  | _ => .one

/-- The extreme that `choose` finds among the arguments, or NaN if one of them is NaN. -/
def extreme (choose : Float → Float → Float) (start : Float) (args : List Float) : Float :=
  if args.any Float.isNaN then Number.nan else args.foldl choose start

/-- Calls a function on its arguments; a missing argument counts as NaN. Only `random` draws from the stream. -/
def call (f : Builtin) (args : List Float) : StateM Stream Float :=
  let x := args.head?.getD Number.nan
  match f with
  | abs => return x.abs
  | ceil => return Number.ceiling x
  | floor => return Number.floor x
  | round => return Number.rounded x
  | max => return extreme Number.larger (-Number.infinity) args
  | min => return extreme Number.smaller Number.infinity args
  | sum => return Number.total args
  | avg => return Number.total args / Float.ofNat args.length
  | random => Stream.draw
  | sin => return x.sin
  | cos => return x.cos
  | tan => return x.tan
  | asin => return x.asin
  | acos => return x.acos
  | atan => return x.atan
  | sinh => return x.sinh
  | cosh => return x.cosh
  | tanh => return x.tanh
  | ln => return x.log
  | log10 => return x.log10
  | sqrt => return x.sqrt
  | cbrt => return x.cbrt

end Builtin

/-- The value of a named constant: `e`, or `pi`. -/
def constant? : String → Option Float
  | "e" => some 2.718281828459045
  | "pi" => some 3.141592653589793
  | _ => none

end ParetoSweep
