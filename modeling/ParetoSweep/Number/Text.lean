import ParetoSweep.Number.Integral
import ParetoSweep.Number.Shortest

/-!
# Written forms of a double

Three forms share the names of the infinities and of NaN and write a minus sign for every negative number, negative
zero included. `text` has the fewest digits that read back and never a power of ten; `markedText` adds a point to a
whole number and uses a power of ten far from one; `hundredthsText` has two places after exact rounding.
-/

namespace ParetoSweep
namespace Number

open Float.Model (UnpackedFloat)

/-- How the shortest digits are laid out. -/
structure Layout where
  /-- The powers of ten, first to last, of leading digits that are written without a power of ten; `none` for all. -/
  positional : Option (Int × Int)
  /-- Whether a whole number ends in `.0`. -/
  marked : Bool

/-- Digits only, however many zeros that takes. -/
def Layout.plain : Layout := ⟨none, false⟩

/-- A point in every number, and a power of ten from `10 ^ 16` on and below `10 ^ -4`. -/
def Layout.marking : Layout := ⟨some (-4, 15), true⟩

/-- The digits of a natural number. -/
def digitsOf (n : Nat) : List Char := (toString n).toList

/-- A digit sequence with its first `whole` digits in front of the point, filled up with zeros on either side. -/
def placePoint (digits : List Char) (whole : Int) (marked : Bool) : List Char :=
  if whole ≤ 0 then '0' :: '.' :: (List.replicate (-whole).toNat '0' ++ digits)
  else if digits.length ≤ whole then
    digits ++ List.replicate (whole - digits.length).toNat '0' ++ (if marked then ['.', '0'] else [])
  else digits.take whole.toNat ++ '.' :: digits.drop whole.toNat

/-- A digit sequence times a power of ten, with the point after the first digit. -/
def scientific (digits : List Char) (power : Int) : List Char :=
  let mantissa := match digits with
    | d :: e :: rest => d :: '.' :: e :: rest
    | _ => digits
  mantissa ++ 'e' :: (toString power).toList

/-- A positive decimal in the given layout. -/
def Layout.magnitude (layout : Layout) (d : Decimal) : List Char :=
  let digits := digitsOf d.digits
  let whole := d.exponent + digits.length
  match layout.positional with
  | none => placePoint digits whole layout.marked
  | some (first, last) =>
    if first ≤ whole - 1 ∧ whole - 1 ≤ last then placePoint digits whole layout.marked
    else scientific digits (whole - 1)

/-- The minus sign of a negative number. -/
def signText : UnpackedFloat.Sign → String
  | .negative => "-"
  | .positive => ""

/-- A double in the given layout. -/
def Layout.text (layout : Layout) (x : Float) : String :=
  match x.toModel.unpack with
  | .notANumber => "NaN"
  | .infinity sign => signText sign ++ "inf"
  | .zero sign => signText sign ++ (if layout.marked then "0.0" else "0")
  | .finite sign m e _ => signText sign ++ String.ofList (layout.magnitude (shortest m e))

/-- The fewest digits that read back, without a power of ten. -/
def text (x : Float) : String := Layout.plain.text x

/-- The fewest digits that read back, with a point or a power of ten. -/
def markedText (x : Float) : String := Layout.marking.text x

/-- The natural number nearest to `n / d`, a half going to the even neighbour. -/
def quotientToEven (n d : Nat) : Nat :=
  let q := n / d
  if 2 * (n % d) < d then q
  else if d < 2 * (n % d) then q + 1
  else q + q % 2

/-- The nearest whole number of hundredths to `m · 2 ^ e`, a half going to the even neighbour. -/
def hundredths (m : Nat) (e : Int) : Nat := quotientToEven ((100 * m) <<< e.toNat) (1 <<< (-e).toNat)

/-- A count of hundredths with two places after the point. -/
def placesOf (hundredths : Nat) : List Char :=
  let digits := digitsOf hundredths
  let padded := List.replicate (3 - digits.length) '0' ++ digits
  padded.take (padded.length - 2) ++ '.' :: padded.drop (padded.length - 2)

/-- A double with two places after the point. -/
def hundredthsText (x : Float) : String :=
  match x.toModel.unpack with
  | .notANumber => "NaN"
  | .infinity sign => signText sign ++ "inf"
  | .zero sign => signText sign ++ "0.00"
  | .finite sign m e _ => signText sign ++ String.ofList (placesOf (hundredths m e))

end Number
end ParetoSweep
