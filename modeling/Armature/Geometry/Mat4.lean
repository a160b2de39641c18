import Armature.Geometry.Quat

/-!
Matrices of four columns, which stand for affine maps, and the way between them and a translation, a
rotation and a scale.
-/

namespace Armature

/-- A column of a matrix. -/
structure Vec4 (α : Type) where
  x : α
  y : α
  z : α
  w : α
deriving DecidableEq, Inhabited

/-- A matrix of four columns: the images of the three axes, and the translation. -/
structure Mat4 (α : Type) where
  xAxis : Vec4 α
  yAxis : Vec4 α
  zAxis : Vec4 α
  wAxis : Vec4 α
deriving DecidableEq, Inhabited

namespace Vec4

variable {α : Type} [Scalar α]

instance : Add (Vec4 α) := ⟨fun a b => ⟨a.x + b.x, a.y + b.y, a.z + b.z, a.w + b.w⟩⟩

instance : BEq (Vec4 α) where
  beq a b := a.x == b.x && a.y == b.y && a.z == b.z && a.w == b.w

def scale (a : Vec4 α) (s : α) : Vec4 α := ⟨a.x * s, a.y * s, a.z * s, a.w * s⟩

def length (a : Vec4 α) : α := Scalar.sqrt (a.x * a.x + a.y * a.y + a.z * a.z + a.w * a.w)

def truncate (a : Vec4 α) : Vec3 α := ⟨a.x, a.y, a.z⟩

end Vec4

namespace Mat4

variable {α : Type} [Scalar α]

/-- The matrix that changes nothing. -/
def identity : Mat4 α := ⟨⟨1, 0, 0, 0⟩, ⟨0, 1, 0, 0⟩, ⟨0, 0, 1, 0⟩, ⟨0, 0, 0, 1⟩⟩

instance : BEq (Mat4 α) where
  beq a b := a.xAxis == b.xAxis && a.yAxis == b.yAxis && a.zAxis == b.zAxis && a.wAxis == b.wAxis

/-- The image of a column. -/
def apply (m : Mat4 α) (v : Vec4 α) : Vec4 α :=
  m.xAxis.scale v.x + m.yAxis.scale v.y + m.zAxis.scale v.z + m.wAxis.scale v.w

/-- The map `b` followed by the map `a`. -/
instance : Mul (Mat4 α) where
  mul a b := ⟨a.apply b.xAxis, a.apply b.yAxis, a.apply b.zAxis, a.apply b.wAxis⟩

/-- The determinant, by the minors of the last two columns. -/
def determinant (m : Mat4 α) : α :=
  let a := m.xAxis
  let b := m.yAxis
  let c := m.zAxis
  let d := m.wAxis
  let zw := c.z * d.w - c.w * d.z
  let yw := c.y * d.w - c.w * d.y
  let yz := c.y * d.z - c.z * d.y
  let xw := c.x * d.w - c.w * d.x
  let xz := c.x * d.z - c.z * d.x
  let xy := c.x * d.y - c.y * d.x
  a.x * (b.y * zw - b.z * yw + b.w * yz) - a.y * (b.x * zw - b.z * xw + b.w * xz)
    + a.z * (b.x * yw - b.y * xw + b.w * xy) - a.w * (b.x * yz - b.y * xz + b.z * xy)

/-- The map that scales along the axes, then rotates, then translates. -/
def ofScaleRotationTranslation (s : Vec3 α) (q : Quat α) (t : Vec3 α) : Mat4 α :=
  let x2 := q.x + q.x
  let y2 := q.y + q.y
  let z2 := q.z + q.z
  let xx := q.x * x2
  let xy := q.x * y2
  let xz := q.x * z2
  let yy := q.y * y2
  let yz := q.y * z2
  let zz := q.z * z2
  let wx := q.w * x2
  let wy := q.w * y2
  let wz := q.w * z2
  ⟨Vec4.scale ⟨1 - (yy + zz), xy + wz, xz - wy, 0⟩ s.x,
   Vec4.scale ⟨xy - wz, 1 - (xx + zz), yz + wx, 0⟩ s.y,
   Vec4.scale ⟨xz + wy, yz - wx, 1 - (xx + yy), 0⟩ s.z,
   ⟨t.x, t.y, t.z, 1⟩⟩

end Mat4

/-- The rotation that takes the three axes to three orthonormal vectors. Which component of the quaternion
    is extracted first, and divides the others, is chosen so that it is not small. -/
def Quat.ofAxes {α : Type} [Scalar α] (a b c : Vec3 α) : Quat α :=
  if c.z ≤ 0 then
    let difference := b.y - a.x
    let rest := 1 - c.z
    if difference ≤ 0 then
      let square := rest - difference
      let factor := 0.5 / Scalar.sqrt square
      ⟨square * factor, (a.y + b.x) * factor, (a.z + c.x) * factor, (b.z - c.y) * factor⟩
    else
      let square := rest + difference
      let factor := 0.5 / Scalar.sqrt square
      ⟨(a.y + b.x) * factor, square * factor, (b.z + c.y) * factor, (c.x - a.z) * factor⟩
  else
    let sum := b.y + a.x
    let rest := 1 + c.z
    if sum ≤ 0 then
      let square := rest - sum
      let factor := 0.5 / Scalar.sqrt square
      ⟨(a.z + c.x) * factor, (b.z + c.y) * factor, square * factor, (a.y - b.x) * factor⟩
    else
      let square := rest + sum
      let factor := 0.5 / Scalar.sqrt square
      ⟨(b.z - c.y) * factor, (c.x - a.z) * factor, (a.y - b.x) * factor, square * factor⟩

namespace Mat4

variable {α : Type} [Scalar α]

/-- The scale, rotation and translation of an affine map without shear. The lengths of the columns are the
    scales; a reflection is put into the sign of the first. -/
def toScaleRotationTranslation (m : Mat4 α) : Vec3 α × Quat α × Vec3 α :=
  let s : Vec3 α :=
    ⟨m.xAxis.length * Scalar.signum m.determinant, m.yAxis.length, m.zAxis.length⟩
  let q := Quat.ofAxes (m.xAxis.scale (1 / s.x)).truncate (m.yAxis.scale (1 / s.y)).truncate
    (m.zAxis.scale (1 / s.z)).truncate
  (s, q, m.wAxis.truncate)

end Mat4
end Armature
