import ParetoSweep.Formula.Fault
import ParetoSweep.Formula.Operator

/-!
# Terms and their values

A term is evaluated from left to right under a list of bound names and draws random numbers as it goes, so a value
depends on the stream of random numbers and leaves it further on. A name without a value ends the evaluation, and the
numbers drawn before it stay drawn.
-/

namespace ParetoSweep

/-- The tree of a formula; constants are numbers in it and brackets leave no trace. -/
inductive Term where
  | number (value : Float)
  | named (name : String)
  | negate (inner : Term)
  | binary (op : Operator) (left right : Term)
  | call (function : Builtin) (args : List Term)

/-- Names and their values. -/
abbrev Bindings := List (String × Float)

/-- A computation that draws random numbers and may fail; what was drawn before a failure stays drawn. -/
abbrev Evaluation := ExceptT Fault (StateM Stream)

namespace Term

mutual

/-- The value of a term. -/
def eval (bindings : Bindings) : Term → Evaluation Float
  | number value => pure value
  | named name =>
    match bindings.lookup name with
    | some value => pure value
    | none => throw (.unknownName name)
  | negate inner => do
    let x ← inner.eval bindings
    return -x
  | binary op left right => do
    let x ← left.eval bindings
    let y ← right.eval bindings
    return op.apply x y
  | call function args => do
    let xs ← evalAll bindings args
    function.call xs

/-- The values of terms, from left to right. -/
def evalAll (bindings : Bindings) : List Term → Evaluation (List Float)
  | [] => pure []
  | t :: ts => do
    let x ← t.eval bindings
    let xs ← evalAll bindings ts
    return x :: xs

end

end Term
end ParetoSweep
