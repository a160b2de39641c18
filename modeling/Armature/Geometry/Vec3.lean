import Armature.Scalar

/-!
Vectors of three scalars: translations and scales.
-/

namespace Armature

/-- A vector of three scalars. -/
structure Vec3 (α : Type) where
  x : α
  y : α
  z : α
deriving DecidableEq, Inhabited

namespace Vec3

variable {α : Type} [Scalar α]

def zero : Vec3 α := ⟨0, 0, 0⟩

/-- The vector of ones: the scale that changes nothing. -/
def ones : Vec3 α := ⟨1, 1, 1⟩

/-- Applies an operation to each pair of components. -/
def zipWith (f : α → α → α) (a b : Vec3 α) : Vec3 α :=
  ⟨f a.x b.x, f a.y b.y, f a.z b.z⟩

instance : Add (Vec3 α) := ⟨zipWith (· + ·)⟩

instance : Sub (Vec3 α) := ⟨zipWith (· - ·)⟩

instance : Mul (Vec3 α) := ⟨zipWith (· * ·)⟩

instance : Div (Vec3 α) := ⟨zipWith (· / ·)⟩

instance : BEq (Vec3 α) where
  beq a b := a.x == b.x && a.y == b.y && a.z == b.z

/-- Interpolation from `a` at `t = 0` to `b` at `t = 1`. -/
def lerp (a b : Vec3 α) (t : α) : Vec3 α :=
  zipWith (fun p q => Scalar.lerp p q t) a b

/-- Whether corresponding components differ by at most `ε`. -/
def isClose (a b : Vec3 α) (ε : α) : Bool :=
  Scalar.abs (a.x - b.x) ≤ ε && Scalar.abs (a.y - b.y) ≤ ε && Scalar.abs (a.z - b.z) ≤ ε

end Vec3
end Armature
