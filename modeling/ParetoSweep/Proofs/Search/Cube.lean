import Mathlib.Algebra.Group.Nat.Defs
import ParetoSweep.Proofs.Search.Grid
import ParetoSweep.Search.Cube

/-!
# The patterns of a cube

However a range of bit patterns is split, it lists the patterns one after the other (`range_eq_block`). The patterns
from zero on are the numbers in binary (`range_zero`), and so the cube of `n` yes/no decisions lists what the grid of
as many such variables lists, in the same order (`combine_replicate`).
-/

namespace ParetoSweep
namespace Cube

/-! ## Bits -/

/-- The assignment of the lowest `n` bits of a number. -/
def bits (n k : Nat) : Assignment := (List.range n).map fun j => .binary (k.testBit (n - 1 - j))

/-- All assignments of `n` bits, counting up. -/
def patterns (n : Nat) : List Assignment := (List.range (2 ^ n)).map (bits n)

theorem bit_eq_testBit (x : UInt64) {i : Nat} (hi : i < 64) : (x >>> i.toUInt64 &&& 1 == 1) = x.toNat.testBit i := by
  have hand : (x >>> i.toUInt64 &&& 1).toNat = x.toNat / 2 ^ i % 2 := by
    rw [UInt64.toNat_and, UInt64.toNat_shiftRight, Nat.toUInt64_eq, UInt64.toNat_ofNat', Nat.shiftRight_eq_div_pow]
    rw [Nat.mod_eq_of_lt (by omega : i < 2 ^ 64), Nat.mod_eq_of_lt hi]
    exact Nat.and_one_is_mod _
  rw [Nat.testBit_eq_decide_div_mod_eq, ← hand, Bool.eq_iff_iff, beq_iff_eq, decide_eq_true_iff, ← UInt64.toNat_inj]
  rfl

theorem decode_eq_bits {n : Nat} (hn : n ≤ 64) (x : UInt64) : decode n x = bits n x.toNat := by
  unfold decode bits
  refine List.map_congr_left fun j hj => ?_
  rw [List.mem_range] at hj
  rw [bit_eq_testBit x (by omega)]

section Patterns

variable {n k : Nat}

@[simp] theorem length_bits (n k : Nat) : (bits n k).length = n := by simp [bits]

@[simp] theorem length_patterns (n : Nat) : (patterns n).length = 2 ^ n := by simp [patterns]

theorem getElem?_bits {j : Nat} (hj : j < n) : (bits n k)[j]? = some (.binary (k.testBit (n - 1 - j))) := by
  simp [bits, hj]

theorem getElem?_patterns (hk : k < 2 ^ n) : (patterns n)[k]? = some (bits n k) := by simp [patterns, hk]

theorem bits_succ_of_lt (hk : k < 2 ^ n) : bits (n + 1) k = .binary false :: bits n k := by
  unfold bits
  rw [List.range_succ_eq_map, List.map_cons, List.map_map]
  congr 1
  · rw [Nat.sub_zero, Nat.add_sub_cancel, Nat.testBit_lt_two_pow hk]
  · refine List.map_congr_left fun j hj => ?_
    rw [Function.comp_apply, show n + 1 - 1 - j.succ = n - 1 - j by omega]

theorem bits_succ_of_add (hk : k < 2 ^ n) : bits (n + 1) (2 ^ n + k) = .binary true :: bits n k := by
  unfold bits
  rw [List.range_succ_eq_map, List.map_cons, List.map_map]
  congr 1
  · rw [Nat.sub_zero, Nat.add_sub_cancel, Nat.testBit_two_pow_add_eq, Nat.testBit_lt_two_pow hk]
    rfl
  · refine List.map_congr_left fun j hj => ?_
    rw [List.mem_range] at hj
    rw [Function.comp_apply, show n + 1 - 1 - j.succ = n - 1 - j by omega, Nat.testBit_two_pow_add_gt (by omega)]

/-- The first half of the patterns starts with a zero and the second half with a one. -/
theorem patterns_succ (n : Nat) :
    patterns (n + 1) = (patterns n).map (.binary false :: ·) ++ (patterns n).map (.binary true :: ·) := by
  unfold patterns
  rw [Nat.pow_succ, Nat.mul_two, List.range_add, List.map_append, List.map_map, List.map_map, List.map_map]
  congr 1
  · exact List.map_congr_left fun k hk => bits_succ_of_lt (List.mem_range.mp hk)
  · exact List.map_congr_left fun k hk => bits_succ_of_add (List.mem_range.mp hk)

/-- A grid of yes/no decisions lists the patterns. -/
theorem combine_replicate (index n : Nat) : Grid.combine index (List.replicate n .binary) = .ok (patterns n) := by
  induction n generalizing index with
  | zero => rfl
  | succ n ih =>
    rw [List.replicate_succ, Grid.combine, ih, patterns_succ]
    show Except.ok ([Value.binary false, Value.binary true].flatMap fun point => (patterns n).map (point :: ·)) = _
    rw [List.flatMap_cons, List.flatMap_cons, List.flatMap_nil, List.append_nil]

end Patterns

/-! ## Ranges -/

theorem block_append (n : Nat) (start : UInt64) (l m : Nat) :
    block n start (l + m) = block n start l ++ block n (start + l.toUInt64) m := by
  unfold block
  rw [List.range_add, List.map_append, List.map_map]
  congr 1
  refine List.map_congr_left fun i _ => ?_
  rw [Function.comp_apply, Nat.toUInt64_eq, Nat.toUInt64_eq, Nat.toUInt64_eq, UInt64.ofNat_add, UInt64.add_assoc]

theorem one_shiftLeft_eq {k : Nat} (hk : k < 64) : (1 : UInt64) <<< k.toUInt64 = (1 <<< k : Nat).toUInt64 := by
  rw [← UInt64.toNat_inj, UInt64.toNat_shiftLeft, Nat.toUInt64_eq, Nat.toUInt64_eq, UInt64.toNat_ofNat',
    UInt64.toNat_ofNat', Nat.mod_eq_of_lt (by omega : k < 2 ^ 64), Nat.mod_eq_of_lt hk]
  rfl

/-- However a range is split, it is listed in order. -/
theorem range_eq_block (c : Cube) {k : Nat} (hk : k < 65) (start : UInt64) :
    c.range k start = block c.dimension start (1 <<< k) := by
  induction k generalizing start with
  | zero => rfl
  | succ k ih =>
    rw [range]
    split
    · rfl
    · rw [ih (by omega), ih (by omega), one_shiftLeft_eq (by omega), ← block_append]
      congr 1
      rw [Nat.shiftLeft_succ]
      omega

/-- All words of `n` bits are the patterns, counting up. -/
theorem block_zero {n : Nat} (hn : n < 64) : block n 0 (2 ^ n) = patterns n := by
  unfold block patterns
  refine List.map_congr_left fun i hi => ?_
  have hlt : i < 2 ^ 64 := Nat.lt_trans (List.mem_range.mp hi) (Nat.pow_lt_pow_right (by decide) hn)
  rw [UInt64.zero_add, decode_eq_bits (by omega), Nat.toUInt64_eq, UInt64.toNat_ofNat', Nat.mod_eq_of_lt hlt]

/-- The whole cube is the patterns, counting up. -/
theorem range_zero (c : Cube) (h : c.dimension < 64) : c.range c.dimension 0 = patterns c.dimension := by
  rw [range_eq_block c (by omega), Nat.one_shiftLeft, block_zero h]

/-- A cube that fits lists what the grid of its decisions lists. -/
theorem combine_of_assignments {c : Cube} {host : Host} {as : List Assignment} (h : c.assignments host = .ok as) :
    Grid.combine 0 (List.replicate c.dimension .binary) = .ok as := by
  unfold assignments at h
  split at h
  · cases h
  · split at h
    · cases h
    · cases h
      rw [combine_replicate, range_zero c (by omega)]

end Cube
end ParetoSweep
