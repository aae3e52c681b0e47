import ParetoSweep.Decision.Value
import ParetoSweep.Search.Failure
import ParetoSweep.Search.Host

/-!
# Yes/no decisions as bit patterns

The assignments of `n` yes/no decisions are the numbers below `2 ^ n` in binary, the first decision being the most
significant bit, and they are listed in increasing order. A range of patterns is split into halves until it is short
enough to be listed in one go; the halves have nothing to do with each other, so it does not matter who lists them
when.
-/

namespace ParetoSweep

/-- How to list the assignments of a number of yes/no decisions. -/
structure Cube where
  dimension : Nat
  threshold : Nat
deriving DecidableEq, Repr

namespace Cube

/-- A cube with a given split threshold, which is two at least. -/
def ofThreshold (dimension threshold : Nat) : Cube := ⟨dimension, max threshold 2⟩

/-- The number of assignments, if a machine word holds the pattern. -/
def size? (c : Cube) : Option Nat := if c.dimension < 64 then some (1 <<< c.dimension) else none

/-- The assignment that a pattern stands for. -/
def decode (dimension : Nat) (pattern : UInt64) : Assignment :=
  (List.range dimension).map fun j => .binary (pattern >>> (dimension - 1 - j).toUInt64 &&& 1 == 1)

/-- The assignments of the `length` patterns from `start` on. -/
def block (dimension : Nat) (start : UInt64) (length : Nat) : List Assignment :=
  (List.range length).map fun i => decode dimension (start + i.toUInt64)

/-- The assignments of the `2 ^ k` patterns from `start` on. -/
def range (c : Cube) : (k : Nat) → (start : UInt64) → List Assignment
  | 0, start => block c.dimension start 1
  | k + 1, start =>
    if 1 <<< (k + 1) < c.threshold then block c.dimension start (1 <<< (k + 1))
    else c.range k start ++ c.range k (start + 1 <<< k.toUInt64)

/-- A pattern gives one value to each decision. -/
@[simp] theorem length_decode (dimension : Nat) (pattern : UInt64) : (decode dimension pattern).length = dimension := by
  simp [decode]

/-- A block has one assignment for each pattern. -/
@[simp] theorem length_block (dimension : Nat) (start : UInt64) (length : Nat) :
    (block dimension start length).length = length := by
  simp [block]

/-- However a range is split, it has one assignment for each pattern. -/
@[simp] theorem length_range (c : Cube) (k : Nat) (start : UInt64) : (c.range k start).length = 1 <<< k := by
  induction k generalizing start with
  | zero => rw [range, length_block]; rfl
  | succ k ih =>
    rw [range]
    split
    · exact length_block ..
    · rw [List.length_append, ih, ih, Nat.shiftLeft_succ]
      omega

/-- All assignments, if the machine has room for them; a pattern leaves the topmost bit of its word free. -/
def assignments (c : Cube) (host : Host) : Except Failure (List Assignment) :=
  if 63 ≤ c.dimension then .error (.resourceExhausted countLimit)
  else if host.capacity < 1 <<< c.dimension then .error (.resourceExhausted (1 <<< c.dimension))
  else .ok (c.range c.dimension 0)

end Cube
end ParetoSweep
