import Armature.Scalar
import Armature.Number.FloatFormat

/-!
Single-precision floats.

A float is its bit pattern, so that the two zeros and the signs of what is not a number are kept apart.
Sums, products and quotients are computed exactly and rounded once, to the nearest float with ties to
even; comparison reads the bit pattern as an integer. The inverse cosine is a polynomial times a square
root; square roots, sines and cosines are those of the platform's single-precision library.
-/

namespace Armature

/-- A single-precision float: a sign bit above the number of its magnitude in the format. -/
structure Binary32 where
  /-- The bit pattern. -/
  bits : UInt32
deriving DecidableEq, Inhabited

namespace Binary32

/-- The format of the magnitudes. -/
abbrev format : FloatFormat := FloatFormat.binary32

def isNegative (x : Binary32) : Bool := 0x80000000 ≤ x.bits.toNat

/-- The bit pattern without the sign. -/
def magnitude (x : Binary32) : Nat := x.bits.toNat % 0x80000000

/-- The float with the given sign bit and magnitude. -/
def ofParts (negative : Bool) (magnitude : Nat) : Binary32 :=
  ⟨UInt32.ofNat ((if negative then 0x80000000 else 0) + magnitude)⟩

def nan : Binary32 := ofParts false (format.infinity + format.binade / 2)

def infinity (negative : Bool) : Binary32 := ofParts negative format.infinity

def zero (negative : Bool) : Binary32 := ofParts negative 0

/-- Whether the bit pattern stands for no number. -/
def isNaN (x : Binary32) : Bool := format.infinity < x.magnitude

/-- Whether the bit pattern stands for a real number. -/
def isFinite (x : Binary32) : Bool := x.magnitude < format.infinity

/-- What a float stands for. -/
inductive View where
  | nan
  | infinite (negative : Bool)
  /-- The real number `significand * 2 ^ exponent` with a sign, which zero has too. -/
  | finite (negative : Bool) (significand : Nat) (exponent : Int)

/-- What the float stands for. -/
def view (x : Binary32) : View :=
  if x.isNaN then .nan
  else if x.magnitude = format.infinity then .infinite x.isNegative
  else
    let (significand, exponent) := format.decode x.magnitude
    .finite x.isNegative significand exponent

/-- The float nearest to the ratio `num / den`, with the given sign. -/
def ofRatio (negative : Bool) (num den : Nat) : Binary32 :=
  ofParts negative (format.nearest num den)

/-- The float nearest to `significand * 2 ^ exponent`, with the given sign. -/
def ofDyadic (negative : Bool) (significand : Nat) (exponent : Int) : Binary32 :=
  ofParts negative (format.nearestDyadic significand exponent)

/-! ### Order -/

/-- The integer that stands for a float in comparisons; both zeros are `0`. -/
def key (x : Binary32) : Int :=
  if x.isNegative then -(x.magnitude : Int) else x.magnitude

/-- The integer that orders all bit patterns, the negative ones before the others. -/
def totalKey (x : Binary32) : Int :=
  if x.isNegative then -(x.magnitude : Int) - 1 else x.magnitude

/-- Both are numbers, and the first is below the second. -/
def lt (x y : Binary32) : Prop := ¬ x.isNaN ∧ ¬ y.isNaN ∧ x.key < y.key

/-- Both are numbers, and the first is at most the second. -/
def le (x y : Binary32) : Prop := ¬ x.isNaN ∧ ¬ y.isNaN ∧ x.key ≤ y.key

instance : LT Binary32 := ⟨lt⟩

instance : LE Binary32 := ⟨le⟩

instance : DecidableLT Binary32 := fun x y =>
  inferInstanceAs (Decidable (¬ x.isNaN ∧ ¬ y.isNaN ∧ x.key < y.key))

instance : DecidableLE Binary32 := fun x y =>
  inferInstanceAs (Decidable (¬ x.isNaN ∧ ¬ y.isNaN ∧ x.key ≤ y.key))

/-- Equality of numbers: the two zeros are equal, and what is not a number differs from itself. -/
instance : BEq Binary32 where
  beq x y := !x.isNaN && !y.isNaN && x.key == y.key

/-! ### Arithmetic -/

def neg (x : Binary32) : Binary32 := ofParts (!x.isNegative) x.magnitude

/-- A natural number with a sign. -/
def signed (negative : Bool) (n : Nat) : Int := if negative then -(n : Int) else n

/-- The sum, rounded once. An exact zero is negative only if both summands are. -/
def add (x y : Binary32) : Binary32 :=
  match x.view, y.view with
  | .nan, _ | _, .nan => nan
  | .infinite s, .infinite t => if s = t then infinity s else nan
  | .infinite s, _ => infinity s
  | _, .infinite t => infinity t
  | .finite s m e, .finite t n k =>
    let low := min e k
    let sum := signed s (m <<< (e - low).toNat) + signed t (n <<< (k - low).toNat)
    if sum = 0 then zero (s && t) else ofDyadic (sum < 0) sum.natAbs low

def sub (x y : Binary32) : Binary32 := add x y.neg

/-- The product, rounded once. -/
def mul (x y : Binary32) : Binary32 :=
  match x.view, y.view with
  | .nan, _ | _, .nan => nan
  | .infinite s, .infinite t => infinity (s != t)
  | .infinite s, .finite t n _ => if n = 0 then nan else infinity (s != t)
  | .finite s m _, .infinite t => if m = 0 then nan else infinity (s != t)
  | .finite s m e, .finite t n k => ofDyadic (s != t) (m * n) (e + k)

/-- The quotient, rounded once. A number other than zero divided by zero is infinite. -/
def div (x y : Binary32) : Binary32 :=
  match x.view, y.view with
  | .nan, _ | _, .nan => nan
  | .infinite _, .infinite _ => nan
  | .infinite s, .finite t _ _ => infinity (s != t)
  | .finite s _ _, .infinite t => zero (s != t)
  | .finite s m e, .finite t n k =>
    if n = 0 then (if m = 0 then nan else infinity (s != t))
    else ofRatio (s != t) (m <<< (e - k).toNat) (n <<< (k - e).toNat)

/-- One with the sign bit of the argument. -/
def signum (x : Binary32) : Binary32 :=
  if x.isNaN then x else ofRatio x.isNegative 1 1

/-- Applies a function of the platform's single-precision library. -/
def viaPlatform (f : Float32 → Float32) (x : Binary32) : Binary32 :=
  ⟨(f (Float32.ofBits x.bits)).toBits⟩

/-- The float nearest to `mantissa * 10 ^ exponent`, or to `mantissa / 10 ^ exponent`. -/
def ofScientific (mantissa : Nat) (divide : Bool) (exponent : Nat) : Binary32 :=
  if divide then ofRatio false mantissa (tenPow exponent) else ofRatio false (mantissa * tenPow exponent) 1

/-! ### The inverse cosine -/

/-- The value of a polynomial at a point, with the coefficients from the highest power down. Each step
    rounds its product and its sum. -/
def evalPolynomial (coefficients : List Binary32) (x : Binary32) : Binary32 :=
  coefficients.foldl (fun value coefficient => add (mul value x) coefficient) (zero false)

/-- The coefficients, from the highest power down, of a polynomial that on `[0, 1]` is close to the inverse
    cosine divided by `sqrt (1 - x)`. -/
def acosCoefficients : List Binary32 :=
  [neg (ofScientific 12624911 true 10), ofScientific 667009 true 8, neg (ofScientific 17088126 true 9),
   ofScientific 3089188 true 8, neg (ofScientific 50174303 true 9), ofScientific 8897899 true 8,
   neg (ofScientific 2145988 true 7), ofScientific 15707963 true 7]

/-- The float nearest to a half turn in radians. -/
def pi : Binary32 := ofScientific 31415927 true 7

/-- An approximation of the angle in `[0, π]` with the given cosine, good to six decimals. A cosine outside
    `[-1, 1]` counts as the nearer end, and a negative one has the supplement of the angle of its opposite. -/
def acos (x : Binary32) : Binary32 :=
  let one := ofRatio false 1 1
  let size := ofParts false x.magnitude
  let size := if one < size then one else size
  let angle := mul (evalPolynomial acosCoefficients size) (viaPlatform Float32.sqrt (sub one size))
  if zero false ≤ x then angle else sub pi angle

instance : Scalar Binary32 where
  zero := zero false
  one := ofRatio false 1 1
  ofScientific := ofScientific
  add := add
  sub := sub
  mul := mul
  div := div
  neg := neg
  decLt := inferInstance
  decLe := inferInstance
  totalLe x y := x.totalKey ≤ y.totalKey
  sqrt := viaPlatform Float32.sqrt
  sin := viaPlatform Float32.sin
  cos := viaPlatform Float32.cos
  acos := acos
  signum := signum

end Binary32
end Armature
