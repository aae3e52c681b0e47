import ParetoSweep.Number.Word
import ParetoSweep.Search.Workers

/-!
# Splitting ranges of words

The bit patterns of yes/no decisions are words, and a range of them is given by its first word and its length. A range
that is not shorter than the threshold is split in half, whatever its length; two workers may then list the halves.
There is no outcome at all (`none`) where the arithmetic leaves the word.
-/

namespace ParetoSweep

/-- How to list the assignments of yes/no decisions. A range of one word could not be split any further, so the
threshold is two at least. -/
structure Splitter where
  dimension : UInt64
  threshold : UInt64
  parallel : Bool
  two_le_threshold : 2 ≤ threshold

namespace Splitter

/-- The settings for which none are given. -/
def ofDimension (dimension : UInt64) : Splitter := ⟨dimension, 65536, true, by decide⟩

/-- The same splitter with another threshold, which is raised to two. -/
def withThreshold (s : Splitter) (threshold : UInt64) : Splitter :=
  { s with
    threshold := if threshold < 2 then 2 else threshold
    two_le_threshold := by
      split
      · exact UInt64.le_refl 2
      · exact UInt64.not_lt.mp ‹_› }

/-- The same splitter, with or without leave to list halves at the same time. -/
def withParallel (s : Splitter) (parallel : Bool) : Splitter := { s with parallel }

/-- The number of assignments. -/
def size? (s : Splitter) : Option UInt64 := Word.shiftLeft? 1 s.dimension

/-- The failure for want of room. -/
def exhausted? (s : Splitter) : Option Failure := do return .resourceExhausted (← s.size?).toNat

/-- The value of decision `j`, the first one being the highest bit. -/
def bit? (s : Splitter) (pattern j : UInt64) : Option Value := do
  let last ← Word.sub? s.dimension 1
  let place ← Word.sub? last j
  let low ← Word.shiftRight? pattern place
  return .binary (low &&& 1 == 1)

/-- The assignment that a pattern stands for. -/
def decode? (s : Splitter) (pattern : UInt64) : Option Assignment := (Word.range 0 s.dimension).mapM (s.bit? pattern)

/-- The assignments of the `length` patterns from `start` on, one after the other. -/
def block? (s : Splitter) (host : Host) (start length : UInt64) : Option (Except Failure (List Assignment)) := do
  if host.capacity < length.toNat then return .error (← s.exhausted?)
  let stop ← Word.add? start length
  return .ok (← (Word.range start stop).mapM s.decode?)

/-- The assignments of two halves of a range, the first failure counting. -/
def merge? (s : Splitter) (host : Host) :
    Except Failure (List Assignment) → Except Failure (List Assignment) → Option (Except Failure (List Assignment))
  | .error f, _ => some (.error f)
  | .ok _, .error f => some (.error f)
  | .ok left, .ok right => do
    if host.capacity < left.length + right.length then return .error (← s.exhausted?)
    return .ok (left ++ right)

section Shorter

variable {s : Splitter} {length : UInt64}

theorem two_le_length (h : ¬ length < s.threshold) : 2 ≤ length.toNat :=
  UInt64.le_iff_toNat_le.mp (UInt64.le_trans s.two_le_threshold (UInt64.not_lt.mp h))

theorem toNat_half (length : UInt64) : (length / 2).toNat = length.toNat / 2 := UInt64.toNat_div length 2

theorem half_lt (h : ¬ length < s.threshold) : (length / 2).toNat < length.toNat := by
  have := two_le_length h
  have := toNat_half length
  omega

theorem rest_lt {rest : UInt64} (h : ¬ length < s.threshold) (hrest : Word.sub? length (length / 2) = some rest) :
    rest.toNat < length.toNat := by
  have := two_le_length h
  have := toNat_half length
  have := Word.toNat_of_sub? hrest
  omega

end Shorter

/-- The assignments of the `length` patterns from `start` on. -/
def range? (s : Splitter) (team : Team) (host : Host) (start length : UInt64) :
    Option (Except Failure (List Assignment)) :=
  if _ : length < s.threshold then s.block? host start length
  else
    let half := length / 2
    let left := fun () => s.range? team host start half
    let right := fun () =>
      match _ : Word.sub? length half, Word.add? start half with
      | some rest, some middle => s.range? team host middle rest
      | _, _ => none
    let (left, right) := if s.parallel then team.join left right else (left (), right ())
    do s.merge? host (← left) (← right)
termination_by length.toNat
decreasing_by
  · exact half_lt ‹_›
  · exact rest_lt ‹_› ‹_›

/-- All assignments, if the machine has room for them. -/
def assignments? (s : Splitter) (team : Team) (host : Host) : Option (Except Failure (List Assignment)) := do
  if 63 ≤ s.dimension then return .error (.resourceExhausted countLimit)
  s.range? team host 0 (← s.size?)

end Splitter
end ParetoSweep
