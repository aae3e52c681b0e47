import ParetoSweep.Search.Grid

/-!
# Descending into a grid

The combinations of a grid can be noted down one by one, without lists of shorter combinations: a descent goes from the
first variable to the last, tries the points of each domain in turn, and notes down what is chosen when no variable is
left. All levels share one stack of chosen values. A failure on any level ends the whole descent.
-/

namespace ParetoSweep

/-- The values chosen for the variables so far, and the assignments noted down so far. -/
structure Descent where
  chosen : Array Value
  found : Array Assignment

namespace Descent

/-- The beginning of a descent. -/
def start : Descent := ⟨#[], #[]⟩

/-- Chooses a value for the next variable. -/
def push (d : Descent) (x : Value) : Descent := { d with chosen := d.chosen.push x }

/-- Takes the last choice back. -/
def pop (d : Descent) : Descent := { d with chosen := d.chosen.pop }

/-- Notes down what is chosen. -/
def note (d : Descent) : Descent := { d with found := d.found.push d.chosen.toList }

/-- A part of a descent, which may fail; what was noted down until then stays. -/
abbrev Action := ExceptT Failure (StateM Descent)

/-- Goes on with one more value chosen, which is taken back whatever comes of it. -/
def visit (inner : Action Unit) (x : Value) : Action Unit := ExceptT.mk do
  modify (push · x)
  let outcome ← inner.run
  modify pop
  return outcome

/-- Visits the numbers from `x` up to `upper`, at most `steps` of them; a number that the increment does not move is
visited and is a failure then. -/
def climb (upper increment : Float) (lost : Failure) (each : Value → Action Unit) : (steps : Nat) → (x : Float) →
    Action Unit
  | 0, _ => return
  | steps + 1, x => do
    if x ≤ upper then
      each (.real x)
      let next := x + increment
      if next == x then throw lost
      climb upper increment lost each steps next

/-- Visits the points of the variable with the given index. -/
def level (index : Nat) (each : Value → Action Unit) : Variable → Action Unit
  | .binary => [false, true].forM fun bit => each (.binary bit)
  | .integer lower upper => (Walk.integers lower upper).forM each
  | .real lower upper increment => do
    if 0 < increment then
      let steps := (Number.rank upper - Number.rank lower).toNat + 1
      climb upper increment (.invalidProblem (.incrementBelowPrecision index increment)) each steps lower

/-- Notes down what is chosen in all combinations with points of the variables that are left, of which the first has the
given index. -/
def descend : (index : Nat) → List Variable → Action Unit
  | _, [] => modify note
  | index, v :: vs => level index (visit (descend (index + 1) vs)) v

/-- What is noted down in a descent through all variables, unless it fails. -/
def assignments (vs : List Variable) : Except Failure (List Assignment) :=
  let (outcome, last) := (descend 0 vs).run.run start
  outcome.map fun _ => last.found.toList

end Descent

/-- All combinations in the order of a descent, if the machine has room for as many as there should be. -/
def Grid.assignmentsByDescent (vs : List Variable) (host : Host) : Except Failure (List Assignment) := do
  let expected ← size vs
  if host.capacity < expected then throw (.resourceExhausted expected)
  Descent.assignments vs

end ParetoSweep
