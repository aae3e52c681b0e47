/-!
# The shortest decimal of a double

The positive double `m · 2 ^ e` is read back from every decimal in the interval that rounds to it; the ends of that
interval lie halfway to the neighbouring doubles and belong to it iff `m` is even. `shortest` walks through ever finer
decimal grids and stops at the first one with a point in the interval. Only the two grid points around the double need
a test; if both qualify the nearer one is taken, and of two equally near ones the upper.
-/

namespace ParetoSweep
namespace Number

/-- The decimal `digits · 10 ^ exponent`. -/
structure Decimal where
  digits : Nat
  exponent : Int
deriving DecidableEq, Repr

/-- The decimals that round to the double `m · 2 ^ e`, as multiples of `2 ^ (e - 2)`. -/
structure Interval where
  lower : Nat
  value : Nat
  upper : Nat
  closed : Bool
  exponent : Int
deriving Repr

/-- The interval of `m · 2 ^ e`; below a power of two the neighbour is only half as far away. -/
def Interval.around (m : Nat) (e : Int) : Interval where
  lower := if m = 4503599627370496 ∧ -1074 < e then 4 * m - 1 else 4 * m - 2
  value := 4 * m
  upper := 4 * m + 2
  closed := m % 2 = 0
  exponent := e - 2

/-- A point of the interval among the multiples of `10 ^ s`, or where there is none the multiple below the double;
the flag tells which. -/
def Interval.onGrid (i : Interval) (s : Int) : Decimal × Bool :=
  let gridUnit := Nat.pow 10 s.toNat <<< (-i.exponent).toNat
  let unit := Nat.pow 10 (-s).toNat <<< i.exponent.toNat
  let holds := fun (c : Nat) =>
    if i.closed then decide (i.lower * unit ≤ c * gridUnit ∧ c * gridUnit ≤ i.upper * unit)
    else decide (i.lower * unit < c * gridUnit ∧ c * gridUnit < i.upper * unit)
  let below := i.value * unit / gridUnit
  let nearBelow := decide (2 * (i.value * unit) < (2 * below + 1) * gridUnit)
  if holds (below + 1) && !(holds below && nearBelow) then (⟨below + 1, s⟩, true)
  else (⟨below, s⟩, holds below)

/-- The point of the coarsest grid that meets the interval, out of `10 ^ s` and at most `finer` finer ones. -/
def Interval.coarsest (i : Interval) : (finer : Nat) → (s : Int) → Decimal
  | 0, s => (i.onGrid s).1
  | finer + 1, s =>
    let (point, found) := i.onGrid s
    if found then point else i.coarsest finer (s - 1)

/-- The decimal with the fewest digits that reads back as `m · 2 ^ e`, and of those the nearest. The first grid is
above the double, since `1233 / 4096` is just above the decimal logarithm of two, and a double never needs more than
seventeen digits. -/
def shortest (m : Nat) (e : Int) : Decimal :=
  (Interval.around m e).coarsest 20 (((m.log2 : Int) + 1 + e) * 1233 / 4096 + 1)

end Number
end ParetoSweep
