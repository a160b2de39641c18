/-!
Binary floating-point formats and correct rounding into them.

The non-negative values of a format are numbered in increasing order, from `0` for zero up to
`infinity`, so that the number of a value is also its bit pattern. `nearest` rounds an exact ratio of
natural numbers to the number of the nearest value of the format, a tie going to the even one.
-/

namespace Armature

/-- The quotient `num / den` rounded to the nearest natural number, a tie going to the even one. -/
def divNearest (num den : Nat) : Nat :=
  let quotient := num / den
  match compare (2 * (num % den)) den with
  | .lt => quotient
  | .eq => quotient + quotient % 2
  | .gt => quotient + 1

def tenPow (n : Nat) : Nat := Nat.pow 10 n

/-- The greatest `k` with `2 ^ k ≤ num / den`, for a positive ratio. -/
def floorLog2 (num den : Nat) : Int :=
  let k : Int := num.log2 - den.log2
  if den <<< k.toNat ≤ num <<< (-k).toNat then k else k - 1

/-- A binary floating-point format: the number of bits of its significands and of its exponents. -/
structure FloatFormat where
  /-- Bits of a significand, the leading one included. -/
  precision : Nat
  /-- Bits of the exponent field. -/
  exponentBits : Nat

namespace FloatFormat

def binary32 : FloatFormat := ⟨24, 8⟩

def binary64 : FloatFormat := ⟨53, 11⟩

/-- The smallest positive value is two to this power. -/
def minExponent (f : FloatFormat) : Int :=
  3 - (1 <<< (f.exponentBits - 1) : Nat) - f.precision

/-- How many values share one exponent. -/
def binade (f : FloatFormat) : Nat := 1 <<< (f.precision - 1)

/-- The number of infinity: it follows the number of the largest finite value. -/
def infinity (f : FloatFormat) : Nat := (1 <<< f.exponentBits - 1) * f.binade

/-- The value with the given number, as a significand and an exponent of two. -/
def decode (f : FloatFormat) (number : Nat) : Nat × Int :=
  let field := number / f.binade
  let fraction := number % f.binade
  if field = 0 then (fraction, f.minExponent)
  else (fraction + f.binade, f.minExponent + (field - 1))

/-- The exponent of the spacing between the values of the format around a positive ratio. -/
def spacing (f : FloatFormat) (num den : Nat) : Int :=
  max (floorLog2 num den + 1 - f.precision) f.minExponent

/-- The number of the value nearest to `num / den`, a tie going to the even number. A ratio that rounds
    past the largest finite value gives infinity. -/
def nearest (f : FloatFormat) (num den : Nat) : Nat :=
  if num = 0 then 0
  else
    let e := f.spacing num den
    let significand := divNearest (num <<< (-e).toNat) (den <<< e.toNat)
    min ((e - f.minExponent).toNat * f.binade + significand) f.infinity

/-- Rounding does not go past infinity. -/
theorem nearest_le_infinity (f : FloatFormat) (num den : Nat) : f.nearest num den ≤ f.infinity := by
  unfold nearest
  split
  · exact Nat.zero_le _
  · exact Nat.min_le_right _ _

/-- The number of the value nearest to `significand * 2 ^ exponent`. -/
def nearestDyadic (f : FloatFormat) (significand : Nat) (exponent : Int) : Nat :=
  f.nearest (significand <<< exponent.toNat) (1 <<< (-exponent).toNat)

/-- The product of two finite values, rounded once. -/
def mul (f : FloatFormat) (a b : Nat) : Nat :=
  let (m, e) := f.decode a
  let (n, k) := f.decode b
  f.nearestDyadic (m * n) (e + k)

/-- The quotient of two finite values, rounded once. The divisor must not be zero. -/
def div (f : FloatFormat) (a b : Nat) : Nat :=
  let (m, e) := f.decode a
  let (n, k) := f.decode b
  f.nearest (m <<< (e - k).toNat) (n <<< (k - e).toNat)

end FloatFormat
end Armature
