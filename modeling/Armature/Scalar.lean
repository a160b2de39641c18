/-!
The numbers that animation is computed with.

Every formula of the library is written once, over any type of scalars: it runs on single-precision
floats and can be reasoned about over the real numbers.
-/

namespace Armature

/-- A type of scalars. Comparison may be partial (a float that is not a number compares with nothing),
    so code over scalars never takes `¬ a < b` for `b ≤ a`. -/
class Scalar (α : Type) extends Zero α, One α, OfScientific α, Add α, Sub α, Mul α, Div α, Neg α,
    LT α, LE α, BEq α where
  decLt : DecidableLT α
  decLe : DecidableLE α
  /-- The order that keys are sorted by: it is total, and agrees with `≤` where that is defined, up to
      the order of equal scalars. -/
  totalLe : α → α → Bool
  /-- The square root; not a number below zero. -/
  sqrt : α → α
  /-- The sine of an angle in radians. -/
  sin : α → α
  /-- The cosine of an angle in radians. -/
  cos : α → α
  /-- The angle in `[0, π]` with the given cosine, where a cosine outside `[-1, 1]` counts as the nearer
      end. -/
  acos : α → α
  /-- One with the sign of the argument, where a zero has the sign it carries. -/
  signum : α → α

attribute [reducible, instance] Scalar.decLt Scalar.decLe

namespace Scalar

variable {α : Type} [Scalar α]

/-- The larger of two scalars. An operand that is not a number is passed over, and of two equal operands
    the second is taken. -/
def max (a b : α) : α :=
  if b < a then a else if b == b then b else a

def abs (a : α) : α :=
  if a < 0 then -a else a

/-- The scalar itself inside `[0, 1]`, and the nearer end outside; what is not a number stays so. -/
def clampUnit (a : α) : α :=
  if a < 0 then 0 else if 1 < a then 1 else a

def toRadians (a : α) : α := a * 0.017453292

def toDegrees (a : α) : α := a * 57.29578

/-- Interpolation from `a` at `t = 0` to `b` at `t = 1`. -/
def lerp (a b t : α) : α := a * (1 - t) + b * t

end Scalar
end Armature
