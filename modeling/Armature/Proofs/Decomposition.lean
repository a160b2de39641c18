import Mathlib.Tactic.FieldSimp
import Mathlib.Tactic.LinearCombination
import Armature.Proofs.Interpolation

/-!
# Decomposing matrices

In exact arithmetic the matrix of a transform is decomposed into a transform with the same matrix
(`Transform.IsRegular.toMatrix_ofMatrix`), if the rotation has length one and no component of the scale is zero. It need not be
the same transform: the lengths of the columns say nothing of the signs of the scale, but for their product, which is
put on the first component. What remains of the signs is half a turn about one of the axes (`Quat.IsUnit.exists_turned`),
which goes to the rotation, and a rotation has two quaternions.
-/

namespace Armature

/-- A vector, times a scalar. -/
def Vec3.scaleBy (a : Vec3 ℝ) (s : ℝ) : Vec3 ℝ := ⟨a.x * s, a.y * s, a.z * s⟩

/-- The vector has length one. -/
def Vec3.IsUnit (a : Vec3 ℝ) : Prop := a.x * a.x + a.y * a.y + a.z * a.z = 1

namespace Quat

variable {p q : Quat ℝ}

/-! ## The images of the axes -/

/-- The image of the first axis under the rotation of a quaternion. -/
def xAxis (q : Quat ℝ) : Vec3 ℝ :=
  ⟨1 - (q.y * (q.y + q.y) + q.z * (q.z + q.z)), q.x * (q.y + q.y) + q.w * (q.z + q.z),
    q.x * (q.z + q.z) - q.w * (q.y + q.y)⟩

def yAxis (q : Quat ℝ) : Vec3 ℝ :=
  ⟨q.x * (q.y + q.y) - q.w * (q.z + q.z), 1 - (q.x * (q.x + q.x) + q.z * (q.z + q.z)),
    q.y * (q.z + q.z) + q.w * (q.x + q.x)⟩

def zAxis (q : Quat ℝ) : Vec3 ℝ :=
  ⟨q.x * (q.z + q.z) + q.w * (q.y + q.y), q.y * (q.z + q.z) - q.w * (q.x + q.x),
    1 - (q.x * (q.x + q.x) + q.y * (q.y + q.y))⟩

/-- The axes keep their length. -/
theorem IsUnit.isUnit_axes (h : q.IsUnit) : q.xAxis.IsUnit ∧ q.yAxis.IsUnit ∧ q.zAxis.IsUnit := by
  have hunit : q.x * q.x + q.y * q.y + q.z * q.z + q.w * q.w = 1 := h
  simp only [Vec3.IsUnit, xAxis, yAxis, zAxis]
  refine ⟨?_, ?_, ?_⟩ <;> grind

/-- Two quaternions have the same rotation. -/
structure SameAxes (p q : Quat ℝ) : Prop where
  xAxis : p.xAxis = q.xAxis
  yAxis : p.yAxis = q.yAxis
  zAxis : p.zAxis = q.zAxis

theorem sameAxes_neg (q : Quat ℝ) : SameAxes (-q) q := by
  constructor <;>
    simp only [neg_def, xAxis, yAxis, zAxis, Vec3.mk.injEq] <;>
    refine ⟨?_, ?_, ?_⟩ <;>
    ring

/-! ## Rotations from axes -/

/-- Two quaternions are equal or opposite, and so stand for the same rotation. -/
def EqOrNeg (p q : Quat ℝ) : Prop := p = q ∨ p = -q

theorem EqOrNeg.sameAxes (h : p.EqOrNeg q) : p.SameAxes q := by
  rcases h with rfl | rfl
  · exact ⟨rfl, rfl, rfl⟩
  · exact sameAxes_neg q

/-- Four times a component of a quaternion, by all four components, is brought to the length of the quaternion: what is
    divided by is twice the component or its opposite. -/
theorem eqOrNeg_extract {k square factor x y z w : ℝ} (hfactor : factor = 1 / (2 * Real.sqrt square)) (hpos : 0 < square)
    (hsquare : square = 4 * k ^ 2) (hx : x = 4 * k * q.x) (hy : y = 4 * k * q.y) (hz : z = 4 * k * q.z)
    (hw : w = 4 * k * q.w) : EqOrNeg ⟨x * factor, y * factor, z * factor, w * factor⟩ q := by
  have hk : k ≠ 0 := by
    rintro rfl
    norm_num [hsquare] at hpos
  have hsqrt : Real.sqrt square = 2 * |k| := by
    rw [hsquare, show (4 * k ^ 2 : ℝ) = (2 * k) ^ 2 by ring, Real.sqrt_sq_eq_abs, abs_mul, abs_two]
  rw [hsqrt] at hfactor
  have hcomponent (c : ℝ) : 4 * k * c * factor = 4 * k * factor * c := by ring
  subst hx hy hz hw
  rcases abs_choice k with habs | habs
  · left
    have hone : 4 * k * factor = 1 := by
      rw [hfactor, habs]
      field_simp
      norm_num
    simp only [hcomponent, hone, one_mul]
  · right
    have hone : 4 * k * factor = -1 := by
      rw [hfactor, habs]
      field_simp
      norm_num
    simp only [hcomponent, hone, neg_one_mul, neg_def]

/-- The rotation that is found for the axes of a quaternion is that of the quaternion, in all four branches: each takes
    the square root of four times the square of a component, which is at least one. -/
theorem IsUnit.eqOrNeg_ofAxes (h : q.IsUnit) : (ofAxes q.xAxis q.yAxis q.zAxis).EqOrNeg q := by
  have hunit : q.x * q.x + q.y * q.y + q.z * q.z + q.w * q.w = 1 := h
  have hhalf (r : ℝ) : 0.5 / Scalar.sqrt r = 1 / (2 * Real.sqrt r) := by
    change 0.5 / Real.sqrt r = _
    rw [← div_div]
    norm_num
  unfold ofAxes
  dsimp only
  split
  · next hz =>
    split
    · next hdifference =>
      refine eqOrNeg_extract (k := q.x) (hhalf _) ?_ ?_ ?_ ?_ ?_ ?_
      all_goals
        simp only [xAxis, yAxis, zAxis] at *
        linarith
    · next hdifference =>
      refine eqOrNeg_extract (k := q.y) (hhalf _) ?_ ?_ ?_ ?_ ?_ ?_
      all_goals
        simp only [xAxis, yAxis, zAxis] at *
        linarith
  · next hz =>
    split
    · next hsum =>
      refine eqOrNeg_extract (k := q.z) (hhalf _) ?_ ?_ ?_ ?_ ?_ ?_
      all_goals
        simp only [xAxis, yAxis, zAxis] at *
        linarith
    · next hsum =>
      refine eqOrNeg_extract (k := q.w) (hhalf _) ?_ ?_ ?_ ?_ ?_ ?_
      all_goals
        simp only [xAxis, yAxis, zAxis] at *
        linarith

/-! ## Half turns -/

/-- The axes of a quaternion are those of another one, each with a sign. -/
structure Turned (q : Quat ℝ) (x y z : ℝ) (p : Quat ℝ) : Prop where
  isUnit : p.IsUnit
  xAxis : p.xAxis = q.xAxis.scaleBy x
  yAxis : p.yAxis = q.yAxis.scaleBy y
  zAxis : p.zAxis = q.zAxis.scaleBy z

/-- Signs that are together no reflection are half a turn about an axis, or none. -/
theorem IsUnit.exists_turned (h : q.IsUnit) {x y z : ℝ} (hx : x = 1 ∨ x = -1) (hy : y = 1 ∨ y = -1)
    (hz : z = 1 ∨ z = -1) (hproduct : x * y * z = 1) : ∃ p, q.Turned x y z p := by
  have hunit : q.x * q.x + q.y * q.y + q.z * q.z + q.w * q.w = 1 := h
  rcases hx with rfl | rfl <;> rcases hy with rfl | rfl <;> rcases hz with rfl | rfl <;> norm_num at hproduct
  · refine ⟨q, h, ?_, ?_, ?_⟩ <;> simp [Vec3.scaleBy]
  · refine ⟨⟨q.w, q.z, -q.y, -q.x⟩, ?_, ?_, ?_, ?_⟩
    all_goals
      simp only [IsUnit, dot, Quat.xAxis, Quat.yAxis, Quat.zAxis, Vec3.scaleBy, Vec3.mk.injEq]
      grind
  · refine ⟨⟨-q.z, q.w, q.x, -q.y⟩, ?_, ?_, ?_, ?_⟩
    all_goals
      simp only [IsUnit, dot, Quat.xAxis, Quat.yAxis, Quat.zAxis, Vec3.scaleBy, Vec3.mk.injEq]
      grind
  · refine ⟨⟨q.y, -q.x, q.w, -q.z⟩, ?_, ?_, ?_, ?_⟩
    all_goals
      simp only [IsUnit, dot, Quat.xAxis, Quat.yAxis, Quat.zAxis, Vec3.scaleBy, Vec3.mk.injEq]
      grind

end Quat

namespace Mat4

variable {q : Quat ℝ} {s t : Vec3 ℝ}

/-- A column of a matrix that moves no translation. -/
def direction (a : Vec3 ℝ) : Vec4 ℝ := ⟨a.x, a.y, a.z, 0⟩

/-- The columns of the matrix of a transform. -/
theorem ofScaleRotationTranslation_eq (s : Vec3 ℝ) (q : Quat ℝ) (t : Vec3 ℝ) :
    ofScaleRotationTranslation s q t =
      ⟨(direction q.xAxis).scale s.x, (direction q.yAxis).scale s.y, (direction q.zAxis).scale s.z,
        ⟨t.x, t.y, t.z, 1⟩⟩ := rfl

theorem length_direction_scale {a : Vec3 ℝ} (ha : a.IsUnit) (r : ℝ) : ((direction a).scale r).length = |r| := by
  have hsquare : a.x * r * (a.x * r) + a.y * r * (a.y * r) + a.z * r * (a.z * r) + 0 * r * (0 * r) = r ^ 2 := by
    unfold Vec3.IsUnit at ha
    linear_combination r ^ 2 * ha
  change Real.sqrt (a.x * r * (a.x * r) + a.y * r * (a.y * r) + a.z * r * (a.z * r) + 0 * r * (0 * r)) = |r|
  rw [hsquare, Real.sqrt_sq_eq_abs]

theorem truncate_direction (a : Vec3 ℝ) (r k : ℝ) :
    (((direction a).scale r).scale k).truncate = a.scaleBy (r * k) := by
  simp only [direction, Vec4.scale, Vec4.truncate, Vec3.scaleBy, mul_assoc]

theorem direction_scaleBy (a : Vec3 ℝ) (r k : ℝ) :
    (direction (a.scaleBy r)).scale k = (direction a).scale (r * k) := by
  simp only [direction, Vec4.scale, Vec3.scaleBy, mul_assoc, zero_mul]

/-- The determinant is that of the scale. -/
theorem determinant_ofScaleRotationTranslation (h : q.IsUnit) :
    (ofScaleRotationTranslation s q t).determinant = s.x * s.y * s.z := by
  have hunit : q.x * q.x + q.y * q.y + q.z * q.z + q.w * q.w = 1 := h
  simp only [ofScaleRotationTranslation, determinant, Vec4.scale]
  grind

end Mat4

/-! ## Signs -/

/-- A number is its size with a sign of one or minus one. -/
theorem signum_spec (r : ℝ) :
    (Scalar.signum r = 1 ∨ Scalar.signum r = -1) ∧ Scalar.signum r * |r| = r := by
  change ((if r < 0 then (-1 : ℝ) else 1) = 1 ∨ (if r < 0 then (-1 : ℝ) else 1) = -1) ∧
    (if r < 0 then (-1 : ℝ) else 1) * |r| = r
  split
  · next h => exact ⟨.inr rfl, by rw [abs_of_neg h, neg_one_mul, neg_neg]⟩
  · next h => exact ⟨.inl rfl, by rw [abs_of_nonneg (not_lt.1 h), one_mul]⟩

/-- What a number is divided by has its size, so a sign remains. -/
theorem sign_of_abs_eq {r k : ℝ} (hr : r ≠ 0) (hk : |k| = |r|) :
    (r * (1 / k) = 1 ∨ r * (1 / k) = -1) ∧ r * (1 / k) * k = r := by
  have hne : k ≠ 0 := abs_ne_zero.1 (hk ▸ abs_ne_zero.2 hr)
  refine ⟨?_, by field_simp⟩
  rcases abs_eq_abs.1 hk with rfl | rfl
  · exact .inl (by field_simp)
  · exact .inr (by field_simp)

namespace Transform

/-- A transform whose matrix can be decomposed: the rotation has length one, and no component of the scale is zero. -/
structure IsRegular (a : Transform ℝ) : Prop where
  rotation : a.rotation.IsUnit
  x : a.scale.x ≠ 0
  y : a.scale.y ≠ 0
  z : a.scale.z ≠ 0

variable {a : Transform ℝ}

/-- The scale that is found for the matrix of a transform: the size of each component, and the sign of all together on
    the first one. -/
noncomputable def foundScale (a : Transform ℝ) : Vec3 ℝ :=
  ⟨|a.scale.x| * Scalar.signum (a.scale.x * a.scale.y * a.scale.z), |a.scale.y|, |a.scale.z|⟩

theorem IsRegular.ofMatrix_toMatrix (h : a.IsRegular) :
    ofMatrix a.toMatrix =
      ⟨a.translation,
        Quat.ofAxes (a.rotation.xAxis.scaleBy (a.scale.x * (1 / a.foundScale.x)))
          (a.rotation.yAxis.scaleBy (a.scale.y * (1 / a.foundScale.y)))
          (a.rotation.zAxis.scaleBy (a.scale.z * (1 / a.foundScale.z))),
        a.foundScale⟩ := by
  obtain ⟨hx, hy, hz⟩ := h.rotation.isUnit_axes
  have hdeterminant := Mat4.determinant_ofScaleRotationTranslation (s := a.scale) (t := a.translation) h.rotation
  rw [Mat4.ofScaleRotationTranslation_eq] at hdeterminant
  rw [ofMatrix, toMatrix, Mat4.ofScaleRotationTranslation_eq]
  simp only [Mat4.toScaleRotationTranslation, hdeterminant, Mat4.length_direction_scale hx,
    Mat4.length_direction_scale hy, Mat4.length_direction_scale hz, Mat4.truncate_direction, foundScale]
  rfl

/-- The matrix of a transform is that of the transform that is found for it. -/
theorem IsRegular.toMatrix_ofMatrix (h : a.IsRegular) : (ofMatrix a.toMatrix).toMatrix = a.toMatrix := by
  obtain ⟨hsign, hsignum⟩ := signum_spec (a.scale.x * a.scale.y * a.scale.z)
  have habs : |Scalar.signum (a.scale.x * a.scale.y * a.scale.z)| = 1 := by
    rcases hsign with heq | heq <;> simp [heq]
  obtain ⟨hx, hx'⟩ := sign_of_abs_eq h.x (k := a.foundScale.x) (by simp [foundScale, abs_mul, habs])
  obtain ⟨hy, hy'⟩ := sign_of_abs_eq h.y (k := a.foundScale.y) (by simp [foundScale])
  obtain ⟨hz, hz'⟩ := sign_of_abs_eq h.z (k := a.foundScale.z) (by simp [foundScale])
  have hfound : a.foundScale.x * a.foundScale.y * a.foundScale.z = a.scale.x * a.scale.y * a.scale.z := by
    rw [← hsignum]
    simp only [foundScale, abs_mul]
    ring
  have hproduct : a.scale.x * (1 / a.foundScale.x) * (a.scale.y * (1 / a.foundScale.y)) *
      (a.scale.z * (1 / a.foundScale.z)) = 1 := by
    have hne := mul_ne_zero (mul_ne_zero h.x h.y) h.z
    calc _ = a.scale.x * a.scale.y * a.scale.z / (a.foundScale.x * a.foundScale.y * a.foundScale.z) := by ring
      _ = 1 := by rw [hfound, div_self hne]
  -- the signs that are left are half a turn at most, so the axes are those of a rotation
  obtain ⟨p, hunit, hpx, hpy, hpz⟩ := h.rotation.exists_turned hx hy hz hproduct
  rw [h.ofMatrix_toMatrix, ← hpx, ← hpy, ← hpz]
  obtain ⟨hqx, hqy, hqz⟩ := hunit.eqOrNeg_ofAxes.sameAxes
  generalize Quat.ofAxes p.xAxis p.yAxis p.zAxis = found at *
  simp only [toMatrix, Mat4.ofScaleRotationTranslation_eq, hqx, hqy, hqz, hpx, hpy, hpz, Mat4.direction_scaleBy, hx',
    hy', hz']

end Transform
end Armature
