import ParetoSweep.Proofs.Decision.Walk

/-!
# Integers by index

The walk through an integer domain and the index formula are to list the same numbers: the number with index `i` lies
`i` above the lower bound. The walk does so throughout (`getElem?_integers`) and has as many numbers as are counted
(`length_integers`). The formula does so for the lower half of all words only. It reads the index as a signed number
first, and from `2 ^ 63` on this is so far below zero that the sum leaves the signed range whatever the domain
(`valueAt?_integer`), although a domain may be counted with nearly twice as many numbers.
-/

namespace ParetoSweep

section Integers

variable {lower upper : Int64} {size i : Nat} {index : UInt64}

/-! ## The walk -/

/-- The walk comes to the number `i` above the lower bound after `i` steps. -/
theorem Walk.getElem?_integers (h : i < (upper.toInt - lower.toInt + 1).toNat) :
    (Walk.integers lower upper)[i]? = some (.integer (.ofInt (lower.toInt + i))) := by
  rw [Walk.integers, List.getElem?_map, List.getElem?_range h]
  rfl

theorem Walk.length_integers (lower upper : Int64) :
    (Walk.integers lower upper).length = (upper.toInt - lower.toInt + 1).toNat := by
  rw [Walk.integers, List.length_map, List.length_range]

/-- The count of a domain is the number of its integers. -/
theorem Variable.domainSize?_integer (h : (Variable.integer lower upper).domainSize? = some size) :
    size = (upper.toInt - lower.toInt + 1).toNat := by
  simp only [domainSize?] at h
  split at h
  case isTrue => cases h; omega
  case isFalse =>
    split at h
    · cases h; rfl
    · cases h

/-! ## The index as a signed number -/

/-- A word in the lower half is the same signed number. -/
theorem toInt_toInt64_of_lt (h : index.toNat < 9223372036854775808) : index.toInt64.toInt = index.toNat := by
  show index.toBitVec.toInt = index.toBitVec.toNat
  exact BitVec.toInt_eq_toNat_of_lt (by show 2 * index.toNat < 2 ^ 64; omega)

/-- A word in the upper half is a negative number. -/
theorem toInt_toInt64_of_le (h : 9223372036854775808 ≤ index.toNat) :
    index.toInt64.toInt = index.toNat - 18446744073709551616 := by
  show index.toBitVec.toInt = index.toBitVec.toNat - 18446744073709551616
  rw [BitVec.toInt_eq_toNat_cond, if_neg (by show ¬ 2 * index.toNat < 2 ^ 64; omega)]
  rfl

namespace Variable

/-- In the lower half the index is added to the lower bound. -/
theorem valueAt?_integer_of_lt (h : index.toNat < (upper.toInt - lower.toInt + 1).toNat)
    (hlow : index.toNat < 9223372036854775808) :
    (integer lower upper).valueAt? index = some (.integer (.ofInt (lower.toInt + index.toNat))) := by
  have hmin : -9223372036854775808 ≤ lower.toInt := lower.le_toInt
  have hmax : upper.toInt < 9223372036854775808 := upper.toInt_lt
  have hleast : Int64.minValue.toInt = -9223372036854775808 := by decide
  have hlargest : Int64.maxValue.toInt = 9223372036854775807 := by decide
  rw [valueAt?, toInt_toInt64_of_lt hlow, if_pos (by omega)]

/-- In the upper half the sum is below every signed number. -/
theorem valueAt?_integer_of_le (h : index.toNat < (upper.toInt - lower.toInt + 1).toNat)
    (hhigh : 9223372036854775808 ≤ index.toNat) : (integer lower upper).valueAt? index = none := by
  have hmax : upper.toInt < 9223372036854775808 := upper.toInt_lt
  have hleast : Int64.minValue.toInt = -9223372036854775808 := by decide
  rw [valueAt?, toInt_toInt64_of_le hhigh, if_neg (by omega)]

/-- **An integer domain by index.** A walk through a domain of known size visits as many numbers as are counted, in
increasing order, the one with index `i` being `i` above the lower bound. For indexes below `2 ^ 63` the point with that
index is the same one, so up to that size the points by index are the walk; for every other index of the domain there is
none. -/
theorem valueAt?_integer (hsize : (integer lower upper).domainSize? = some size) :
    (Walk.through (integer lower upper)).points.length = size ∧
    (Walk.through (integer lower upper)).points.Pairwise Value.Before ∧
    (∀ index : UInt64, index.toNat < size →
      (∃ n : Int64, (Walk.through (integer lower upper)).points[index.toNat]? = some (.integer n) ∧
        n.toInt = lower.toInt + index.toNat) ∧
      (integer lower upper).valueAt? index =
        if index.toNat < 9223372036854775808 then (Walk.through (integer lower upper)).points[index.toNat]?
        else none) ∧
    (size ≤ 9223372036854775808 → (List.range size).map (fun i => (integer lower upper).valueAt? (.ofNat i)) =
      (Walk.through (integer lower upper)).points.map some) := by
  obtain rfl := domainSize?_integer hsize
  refine ⟨Walk.length_integers lower upper, Walk.pairwise_integers, fun index h => ⟨?_, ?_⟩, fun hsmall => ?_⟩
  · exact ⟨_, Walk.getElem?_integers h, Walk.toInt_integer h⟩
  · split
    case isTrue hlow => rw [valueAt?_integer_of_lt h hlow, Walk.through, Walk.getElem?_integers h]
    case isFalse hhigh => exact valueAt?_integer_of_le h (Nat.not_lt.mp hhigh)
  · rw [Walk.through, Walk.integers, List.map_map]
    refine List.map_congr_left fun i hi => ?_
    have hi := List.mem_range.mp hi
    have hword : (UInt64.ofNat i).toNat = i := UInt64.toNat_ofNat_of_lt (show i < 18446744073709551616 by omega)
    rw [valueAt?_integer_of_lt (by rwa [hword]) (by omega), hword]
    rfl

/-- The numbers from the least one to zero: the last one has no value by its index, the one before it does. -/
theorem valueAt?_integer_negative :
    (integer Int64.minValue 0).domainSize? = some 9223372036854775809 ∧
      (∃ n : Int64, (Walk.through (integer Int64.minValue 0)).points[9223372036854775807]? = some (.integer n) ∧
        n.toInt = Int64.minValue.toInt + 9223372036854775807) ∧
      (integer Int64.minValue 0).valueAt? 9223372036854775807 =
        (Walk.through (integer Int64.minValue 0)).points[9223372036854775807]? ∧
      (integer Int64.minValue 0).valueAt? 9223372036854775808 = none := by
  have hsize : (integer Int64.minValue 0).domainSize? = some 9223372036854775809 := by decide +kernel
  obtain ⟨-, -, hindex, -⟩ := valueAt?_integer hsize
  obtain ⟨hwalk, hvalue⟩ := hindex 9223372036854775807 (by decide)
  exact ⟨hsize, hwalk, hvalue, (hindex 9223372036854775808 (by decide)).2⟩

/-- An index of a domain of known size need not have a value. -/
theorem exists_valueAt?_integer_eq_none : ∃ (lower upper : Int64) (size : Nat) (index : UInt64), lower ≤ upper ∧
    (integer lower upper).domainSize? = some size ∧ index.toNat < size ∧
      (integer lower upper).valueAt? index = none :=
  ⟨Int64.minValue, 0, 9223372036854775809, 9223372036854775808, by decide, by decide +kernel, by decide,
    by decide +kernel⟩

end Variable

end Integers
end ParetoSweep
