/-!
# Decimal numerals

A numeral is spelled by digits, a fraction after a point and a power of ten after a letter `e`, and each part may be
missing. `Numeral.scan` splits the longest numeral off a text and loses nothing (`text_scan`); `Numeral.value?` is the
nearest double, which exists as soon as there is a digit before or after the point.
-/

namespace ParetoSweep

/-- The power of ten of a numeral: its letter, its sign and its digits. -/
structure Exponent where
  letter : Char
  sign : Option Char
  digits : List Char
deriving DecidableEq, Repr

/-- A numeral as it is spelled; `fraction` holds the digits after the point if there is a point. -/
structure Numeral where
  whole : List Char
  fraction : Option (List Char)
  exponent : Option Exponent
deriving DecidableEq, Repr

namespace Exponent

/-- The spelling of a power of ten. -/
def text (e : Exponent) : List Char := e.letter :: (e.sign.toList ++ e.digits)

end Exponent

namespace Numeral

/-- The number that a sequence of decimal digits denotes. -/
def ofDigits (digits : List Char) : Nat := digits.foldl (fun n c => 10 * n + (c.toNat - 48)) 0

/-- The spelling of a numeral. -/
def text (n : Numeral) : List Char :=
  n.whole ++ ((n.fraction.map ('.' :: ·)).getD [] ++ (n.exponent.map Exponent.text).getD [])

/-- The exponent of ten that a numeral asks for. -/
def power (n : Numeral) : Int :=
  match n.exponent with
  | none => 0
  | some e => if e.sign = some '-' then -(ofDigits e.digits : Int) else ofDigits e.digits

/-- The double nearest to the numeral, unless it has no digit before its power of ten. -/
def value? (n : Numeral) : Option Float :=
  let fraction := n.fraction.getD []
  let digits := n.whole ++ fraction
  if digits.isEmpty then none
  else
    let power := n.power - fraction.length
    some (.ofScientific (ofDigits digits) (decide (power < 0)) power.natAbs)

/-! ## Splitting a numeral off a text -/

/-- A point and the digits after it. -/
def scanFraction : List Char → Option (List Char) × List Char
  | '.' :: cs => (some (cs.takeWhile Char.isDigit), cs.dropWhile Char.isDigit)
  | cs => (none, cs)

/-- A sign in front of a power of ten. -/
def scanSign : List Char → Option Char × List Char
  | [] => (none, [])
  | c :: cs => if c = '+' ∨ c = '-' then (some c, cs) else (none, c :: cs)

/-- A power of ten; a letter that no digit follows belongs to the rest. -/
def scanExponent : List Char → Option Exponent × List Char
  | [] => (none, [])
  | c :: cs =>
    let (sign, rest) := scanSign cs
    let digits := rest.takeWhile Char.isDigit
    if (c = 'e' ∨ c = 'E') ∧ digits ≠ [] then (some ⟨c, sign, digits⟩, rest.dropWhile Char.isDigit)
    else (none, c :: cs)

/-- The longest numeral that the text starts with, possibly without any digit, and the rest of the text. -/
def scan (cs : List Char) : Numeral × List Char :=
  let (fraction, afterFraction) := scanFraction (cs.dropWhile Char.isDigit)
  let (exponent, rest) := scanExponent afterFraction
  (⟨cs.takeWhile Char.isDigit, fraction, exponent⟩, rest)

/-- A fraction and the rest make up the text. -/
theorem scanFraction_append (cs : List Char) :
    ((scanFraction cs).1.map ('.' :: ·)).getD [] ++ (scanFraction cs).2 = cs := by
  unfold scanFraction
  split <;> simp [List.takeWhile_append_dropWhile]

/-- A sign and the rest make up the text. -/
theorem scanSign_append (cs : List Char) : (scanSign cs).1.toList ++ (scanSign cs).2 = cs := by
  unfold scanSign
  split
  · rfl
  · split <;> rfl

/-- A power of ten and the rest make up the text. -/
theorem scanExponent_append (cs : List Char) :
    ((scanExponent cs).1.map Exponent.text).getD [] ++ (scanExponent cs).2 = cs := by
  cases cs with
  | nil => rfl
  | cons c cs =>
    unfold scanExponent
    dsimp only
    split
    · simp [Exponent.text, List.takeWhile_append_dropWhile, scanSign_append]
    · rfl

/-- A numeral and the rest make up the text. -/
theorem text_scan (cs : List Char) : (scan cs).1.text ++ (scan cs).2 = cs := by
  unfold scan text
  dsimp only
  rw [List.append_assoc, List.append_assoc, scanExponent_append, scanFraction_append, List.takeWhile_append_dropWhile]

/-- What follows a fraction is no longer than the text. -/
theorem length_scanFraction_le (cs : List Char) : (scanFraction cs).2.length ≤ cs.length := by
  have h := congrArg List.length (scanFraction_append cs)
  rw [List.length_append] at h
  omega

/-- What follows a power of ten is no longer than the text. -/
theorem length_scanExponent_le (cs : List Char) : (scanExponent cs).2.length ≤ cs.length := by
  have h := congrArg List.length (scanExponent_append cs)
  rw [List.length_append] at h
  omega

/-- A numeral takes at least one character of a text that starts with a digit or a point. -/
theorem length_scan_lt {c : Char} (cs : List Char) (h : c.isDigit = true ∨ c = '.') :
    (scan (c :: cs)).2.length < (c :: cs).length := by
  have hd := (List.dropWhile_suffix (l := cs) Char.isDigit).length_le
  show (scanExponent (scanFraction ((c :: cs).dropWhile Char.isDigit)).2).2.length < cs.length + 1
  refine Nat.lt_succ_of_le (Nat.le_trans (length_scanExponent_le _) ?_)
  rcases h with h | rfl
  · rw [List.dropWhile_cons_of_pos h]
    exact Nat.le_trans (length_scanFraction_le _) hd
  · rw [List.dropWhile_cons_of_neg (by decide)]
    exact hd

end Numeral
end ParetoSweep
