import Armature.Geometry.Vec3

/-!
Quaternions, which stand for rotations when they have length one.

A quaternion and its opposite stand for the same rotation, so interpolation first turns its second
argument to the side of the first.
-/

namespace Armature

/-- A quaternion `w + x i + y j + z k`. -/
structure Quat (α : Type) where
  x : α
  y : α
  z : α
  w : α
deriving DecidableEq, Inhabited

namespace Quat

variable {α : Type} [Scalar α]

/-- The rotation that changes nothing. -/
def identity : Quat α := ⟨0, 0, 0, 1⟩

instance : Add (Quat α) := ⟨fun a b => ⟨a.x + b.x, a.y + b.y, a.z + b.z, a.w + b.w⟩⟩

instance : Neg (Quat α) := ⟨fun a => ⟨-a.x, -a.y, -a.z, -a.w⟩⟩

/-- The Hamilton product: the rotation `b` followed by the rotation `a`. -/
instance : Mul (Quat α) where
  mul a b :=
    ⟨a.w * b.x + a.x * b.w + a.y * b.z - a.z * b.y,
     a.w * b.y - a.x * b.z + a.y * b.w + a.z * b.x,
     a.w * b.z + a.x * b.y - a.y * b.x + a.z * b.w,
     a.w * b.w - a.x * b.x - a.y * b.y - a.z * b.z⟩

instance : BEq (Quat α) where
  beq a b := a.x == b.x && a.y == b.y && a.z == b.z && a.w == b.w

def scale (a : Quat α) (s : α) : Quat α := ⟨a.x * s, a.y * s, a.z * s, a.w * s⟩

def unscale (a : Quat α) (s : α) : Quat α := ⟨a.x / s, a.y / s, a.z / s, a.w / s⟩

def dot (a b : Quat α) : α := a.x * b.x + a.y * b.y + a.z * b.z + a.w * b.w

/-- The quaternion of length one in the same direction. -/
def normalize (a : Quat α) : Quat α := a.unscale (Scalar.sqrt (a.dot a))

/-- The conjugate, which undoes the rotation of a quaternion of length one. -/
def conjugate (a : Quat α) : Quat α := ⟨-a.x, -a.y, -a.z, a.w⟩

/-- Two quaternions with a dot product above this are interpolated as if on a straight line. -/
def nearlyParallel : α := 0.99999988079071044921875

/-- Interpolation along the arc from `a` to whichever of `b` and `-b` lies on its side. Quaternions that
    are nearly parallel leave no arc to divide by, and are interpolated on a straight line. -/
def slerp (a b : Quat α) (t : α) : Quat α :=
  let d := a.dot b
  let (b, d) := if d < 0 then (-b, -d) else (b, d)
  if nearlyParallel < d then
    (a.scale (1 - t) + b.scale t).normalize
  else
    let θ := Scalar.acos d
    (a.scale (Scalar.sin (θ * (1 - t))) + b.scale (Scalar.sin (θ * t))).unscale (Scalar.sin θ)

/-- The rotation by an angle about the first axis. -/
def rotationX (angle : α) : Quat α := ⟨Scalar.sin (angle * 0.5), 0, 0, Scalar.cos (angle * 0.5)⟩

def rotationY (angle : α) : Quat α := ⟨0, Scalar.sin (angle * 0.5), 0, Scalar.cos (angle * 0.5)⟩

def rotationZ (angle : α) : Quat α := ⟨0, 0, Scalar.sin (angle * 0.5), Scalar.cos (angle * 0.5)⟩

/-- The rotation about the first axis, then about the turned second axis, then about the turned third. -/
def ofEuler (x y z : α) : Quat α := rotationX x * rotationY y * rotationZ z

/-- Whether corresponding components differ by at most `ε`. -/
def isClose (a b : Quat α) (ε : α) : Bool :=
  Scalar.abs (a.x - b.x) ≤ ε && Scalar.abs (a.y - b.y) ≤ ε &&
    Scalar.abs (a.z - b.z) ≤ ε && Scalar.abs (a.w - b.w) ≤ ε

end Quat
end Armature
