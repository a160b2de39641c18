import Armature.Number.Binary32
import Armature.Number.Decimal.Basic

/-!
The shortest decimal numeral of a float.

A float has a neighbourhood of real numbers that round to it. Its shortest decimal lies on the coarsest
grid of multiples of a power of ten that has a point in that neighbourhood, and is the point of that
grid nearest to the float, a tie going to the even one.
-/

namespace Armature

/-- Which decimals are written with all their digits around the point; the others have an exponent. -/
structure DecimalLayout where
  /-- The lowest power of ten that a leading digit may stand for. -/
  lowest : Int
  /-- The highest power of ten that a leading digit may stand for. -/
  highest : Int

/-- The numeral of `coefficient * 10 ^ power` in a layout. Around the point there is at least one digit on
    either side; before an exponent there is one digit, and a point only if more digits follow. -/
def DecimalLayout.numeral (layout : DecimalLayout) (negative : Bool) (coefficient : Nat) (power : Int) :
    Decimal :=
  let places := (Nat.toDigits 10 coefficient).length - 1
  let leading := power + places
  if layout.lowest ≤ leading ∧ leading ≤ layout.highest then
    if power < 0 then ⟨negative, coefficient, (-power).toNat, none⟩
    else ⟨negative, coefficient * tenPow (power.toNat + 1), 1, none⟩
  else ⟨negative, coefficient, places, some leading⟩

namespace Binary32

/-- The neighbourhood of a positive float: the real numbers that round to it, between two bounds in units
    of `unit`, which belong to the neighbourhood if `closed`. -/
structure Neighbourhood where
  low : Nat
  centre : Nat
  high : Nat
  /-- The exponent of two of the unit. -/
  unit : Int
  closed : Bool

/-- The neighbourhood of the positive float with the given magnitude. It reaches half way to the next
    float on either side; below a power of two the next float is only half as far away. -/
def neighbourhood (magnitude : Nat) : Neighbourhood :=
  let (significand, exponent) := format.decode magnitude
  let below := if magnitude % format.binade = 0 ∧ format.binade < magnitude then 1 else 2
  { low := 4 * significand - below
    centre := 4 * significand
    high := 4 * significand + 2
    unit := exponent - 2
    closed := magnitude % 2 = 0 }

/-- The multiple of `10 ^ power` that stands for a neighbourhood, by its factor: of the multiples on either
    side of the centre the one that lies in the neighbourhood, and if both do, the nearer one, a tie going
    to the even factor. -/
def Neighbourhood.onGrid? (h : Neighbourhood) (power : Int) : Option Nat :=
  -- one unit is `num / den` grid steps
  let num := tenPow (-power).toNat <<< h.unit.toNat
  let den := tenPow power.toNat <<< (-h.unit).toNat
  let lower := h.centre * num / den
  let inside (c : Nat) : Bool :=
    if h.closed then h.low * num ≤ c * den && c * den ≤ h.high * num
    else h.low * num < c * den && c * den < h.high * num
  match inside lower, inside (lower + 1) with
  | true, true => some (divNearest (h.centre * num) den)
  | true, false => some lower
  | false, true => some (lower + 1)
  | false, false => none

/-- The powers of ten that a digit of a shortest decimal can stand for, from the highest to the lowest. -/
def gridPowers : List Int := (List.range 90).map fun (i : Nat) => 40 - (i : Int)

/-- The shortest decimal that rounds to the positive float of the given magnitude, as a coefficient and a
    power of ten; of the decimals of that length, the nearest to the float. -/
def shortest (magnitude : Nat) : Nat × Int :=
  let h := neighbourhood magnitude
  (gridPowers.findSome? fun power => (h.onGrid? power).map (·, power)).getD (0, 0)

/-- The shortest numeral of a finite float, in a layout. -/
def toDecimal (layout : DecimalLayout) (x : Binary32) : Decimal :=
  if x.magnitude = 0 then ⟨x.isNegative, 0, 1, none⟩
  else
    let (coefficient, power) := shortest x.magnitude
    layout.numeral x.isNegative coefficient power

end Binary32
end Armature
