import Armature.Geometry.Mat4

/-!
The local transform of a bone: a scale, then a rotation, then a translation.

Every operation that produces a rotation normalizes it. `difference` and `applyTo` undo each other, with
the identity as the additive that changes nothing.
-/

namespace Armature

/-- A translation, a rotation and a scale. -/
structure Transform (α : Type) where
  translation : Vec3 α
  rotation : Quat α
  scale : Vec3 α
deriving DecidableEq, Inhabited

namespace Transform

variable {α : Type} [Scalar α]

/-- The transform that changes nothing. -/
def identity : Transform α := ⟨Vec3.zero, Quat.identity, Vec3.ones⟩

instance : BEq (Transform α) where
  beq a b := a.translation == b.translation && a.rotation == b.rotation && a.scale == b.scale

def ofTranslation (translation : Vec3 α) : Transform α := { identity with translation }

def ofRotation (rotation : Quat α) : Transform α := { identity with rotation }

def ofScale (scale : Vec3 α) : Transform α := { identity with scale }

/-- The transform of an affine map without shear. -/
def ofMatrix (m : Mat4 α) : Transform α :=
  let (scale, rotation, translation) := m.toScaleRotationTranslation
  { translation, rotation, scale }

/-- The same transform with the rotation by the given angles about the three axes in turn. -/
def withEuler (a : Transform α) (x y z : α) : Transform α :=
  { a with rotation := Quat.ofEuler x y z }

/-- The affine map of the transform. -/
def toMatrix (a : Transform α) : Mat4 α :=
  Mat4.ofScaleRotationTranslation a.scale a.rotation a.translation

/-- Interpolation from `a` at `t = 0` to `b` at `t = 1`. -/
def lerp (a b : Transform α) (t : α) : Transform α where
  translation := a.translation.lerp b.translation t
  rotation := (a.rotation.slerp b.rotation t).normalize
  scale := a.scale.lerp b.scale t

/-- The additive that leads from `reference` to `a`: the difference of the translations, the rotation
    relative to the reference, and the ratio of the scales. -/
def difference (a reference : Transform α) : Transform α where
  translation := a.translation - reference.translation
  rotation := (a.rotation * reference.rotation.conjugate).normalize
  scale := a.scale / reference.scale

/-- Applies `a` as an additive on top of `target`. -/
def applyTo (a target : Transform α) : Transform α where
  translation := target.translation + a.translation
  rotation := (a.rotation * target.rotation).normalize
  scale := target.scale * a.scale

/-- Whether all components are within `ε` of each other, for one of the two quaternions of the rotation. -/
def isClose (a b : Transform α) (ε : α) : Bool :=
  a.translation.isClose b.translation ε && a.scale.isClose b.scale ε &&
    (a.rotation.isClose b.rotation ε || a.rotation.isClose (-b.rotation) ε)

end Transform
end Armature
