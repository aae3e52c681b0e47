/-!
# Words

Arithmetic on words of 64 bits that has no result where the exact one does not fit into a word, and shifts that have
none where every bit would be pushed out.
-/

namespace ParetoSweep
namespace Word

/-- The sum of two words. -/
def add? (x y : UInt64) : Option UInt64 := if x.toNat + y.toNat < UInt64.size then some (x + y) else none

/-- The difference of two words. -/
def sub? (x y : UInt64) : Option UInt64 := if y ≤ x then some (x - y) else none

/-- A word moved to higher places. -/
def shiftLeft? (x places : UInt64) : Option UInt64 := if places < 64 then some (x <<< places) else none

/-- A word moved to lower places. -/
def shiftRight? (x places : UInt64) : Option UInt64 := if places < 64 then some (x >>> places) else none

/-- The words from `start` up to, but not including, `stop`. -/
def range (start stop : UInt64) : List UInt64 :=
  (List.range (stop.toNat - start.toNat)).map fun i => start + i.toUInt64

section Results

variable {x y : UInt64}

theorem add?_eq_some (h : x.toNat + y.toNat < UInt64.size) : add? x y = some (x + y) := if_pos h

theorem sub?_eq_some (h : y ≤ x) : sub? x y = some (x - y) := if_pos h

theorem shiftLeft?_eq_some (h : y < 64) : shiftLeft? x y = some (x <<< y) := if_pos h

theorem shiftRight?_eq_some (h : y < 64) : shiftRight? x y = some (x >>> y) := if_pos h

/-- A difference that exists is the exact one. -/
theorem toNat_of_sub? {z : UInt64} (h : sub? x y = some z) : z.toNat + y.toNat = x.toNat := by
  unfold sub? at h
  split at h
  case isTrue hle =>
    cases h
    rw [UInt64.toNat_sub_of_le x y hle]
    exact Nat.sub_add_cancel (UInt64.le_iff_toNat_le.mp hle)
  case isFalse => cases h

end Results

end Word
end ParetoSweep
