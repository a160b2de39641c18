import Armature.Number.Binary32
import Armature.Number.Decimal.Basic

/-!
The floats that decimal numerals stand for.

A numeral is read in double precision, in steps that round: its digits are taken as an integer as far as
they fit a machine word, the integer becomes a double, and the double is multiplied or divided by a power
of ten. While the integer and the power are doubles themselves, only the last step rounds, and the answer
is the nearest double; otherwise it can be next to the nearest one.
-/

namespace Armature.Decimal

/-! ### Integers -/

/-- The natural number below `bound` that the numeral writes, if it writes one without sign, point and
    exponent. -/
def toNat? (d : Decimal) (bound : Nat) : Option Nat :=
  if d.isInteger && !d.negative && d.coefficient < bound then some d.coefficient else none

/-- Whether the numeral writes an integer that fits a machine word of 64 bits, signed if it has a sign. -/
def isWord (d : Decimal) : Bool :=
  d.isInteger &&
    (if d.negative then d.coefficient ≤ UInt64.size / 2 else d.coefficient < UInt64.size)

/-! ### Doubles -/

/-- The format of the doubles. -/
abbrev double : FloatFormat := FloatFormat.binary64

/-- Takes digits into a number, from the left, as long as it stays below `bound`. Returns the number and the
    digits that are left. -/
def takeDigits (bound : Nat) (n : Nat) : List Char → Nat × List Char
  | [] => (n, [])
  | c :: cs =>
    let next := 10 * n + (c.toNat - '0'.toNat)
    if next < bound then takeDigits bound next cs else (n, c :: cs)

/-- The leading digits as an integer that fits a machine word, and the power of ten that it is multiplied
    by. Digits that no longer fit are passed over, before the point and behind it. -/
def leadingDigits (d : Decimal) : Nat × Int :=
  let (whole, fraction) := d.digits
  let (n, wholeLeft) := takeDigits UInt64.size 0 whole
  let (n, fractionLeft) := takeDigits UInt64.size n fraction
  (n, d.exponent.getD 0 + wholeLeft.length + fractionLeft.length - d.places)

/-- The highest power of ten in the range of the doubles. -/
def maxTenPower : Nat := 308

/-- The double nearest to a power of ten in range. -/
def doubleTenPow (power : Nat) : Nat := double.nearest (tenPow power) 1

/-- A finite double multiplied by a power of ten; none if the answer is out of range. -/
def scaleUp? (number power : Nat) : Option Nat :=
  if number = 0 then some 0
  else if power ≤ maxTenPower then
    let product := double.mul number (doubleTenPow power)
    if product < double.infinity then some product else none
  else none

/-- A machine word as a double, divided by a power of ten. A power out of range is divided by in two steps,
    and the answer is zero if two steps are not enough. -/
def scaleDown (number power : Nat) : Nat :=
  if power ≤ maxTenPower then double.div number (doubleTenPow power)
  else if power ≤ 2 * maxTenPower then
    double.div (double.div number (doubleTenPow maxTenPower)) (doubleTenPow (power - maxTenPower))
  else 0

/-- The magnitude of the double that is read for a numeral; none if it is out of range. -/
def toDouble? (d : Decimal) : Option Nat :=
  let (n, power) := d.leadingDigits
  let number := double.nearest n 1
  if 0 ≤ power then scaleUp? number power.toNat else some (scaleDown number (-power).toNat)

/-! ### Single precision -/

/-- The single-precision float nearest to the double that is read. -/
def toBinary32ViaDouble? (d : Decimal) : Option Binary32 :=
  d.toDouble?.map fun number =>
    let (significand, exponent) := double.decode number
    Binary32.ofDyadic d.negative significand exponent

/-- The single-precision float that a numeral stands for. An integer that fits a machine word is rounded
    once; any other numeral is read in double precision first, and must be in the range of the doubles. -/
def toBinary32? (d : Decimal) : Option Binary32 :=
  if d.isWord then some (Binary32.ofRatio d.negative d.coefficient 1) else d.toBinary32ViaDouble?

end Armature.Decimal
