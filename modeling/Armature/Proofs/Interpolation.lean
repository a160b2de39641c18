import Armature.Proofs.UnitQuaternion

/-!
# Where interpolation starts and ends

In exact arithmetic an interpolation starts at its first operand (`Transform.lerp_zero`) and ends at its second one
(`Transform.eqUpToSign_lerp_one`), along an arc and along the chord that replaces it. Of the two quaternions of a
rotation it ends at the one on the side of the first operand, so that transforms are compared up to the sign of their
quaternions (`Transform.EqUpToSign`).
-/

namespace Armature

/-! ## Quaternions -/

namespace Quat

variable {a b : Quat ℝ}

theorem add_def (a b : Quat ℝ) : a + b = ⟨a.x + b.x, a.y + b.y, a.z + b.z, a.w + b.w⟩ := rfl

theorem neg_def (a : Quat ℝ) : -a = ⟨-a.x, -a.y, -a.z, -a.w⟩ := rfl

theorem IsUnit.normalize_eq (h : a.IsUnit) : a.normalize = a := by
  have hsqrt : Scalar.sqrt (a.dot a) = 1 := by
    rw [h]
    exact Real.sqrt_one
  rw [normalize, hsqrt]
  simp only [unscale, div_one]

theorem toward_eq_or (a b : Quat ℝ) : a.toward b = b ∨ a.toward b = -b := by
  unfold toward
  split
  · exact .inr rfl
  · exact .inl rfl

theorem scale_zero_add (a b : Quat ℝ) : a.scale 0 + b = b := by
  simp only [add_def, scale, mul_zero, zero_add]

theorem add_scale_zero (a b : Quat ℝ) : a + b.scale 0 = a := by
  simp only [add_def, scale, mul_zero, add_zero]

theorem scale_one (a : Quat ℝ) : a.scale 1 = a := by
  simp only [scale, mul_one]

theorem unscale_scale {s : ℝ} (hs : s ≠ 0) (a : Quat ℝ) : (a.scale s).unscale s = a := by
  simp only [scale, unscale, mul_div_cancel_right₀ _ hs]

/-- The start of a chord. -/
theorem chord_zero (a b : Quat ℝ) : a.chord b 0 = a := by
  rw [chord, sub_zero, add_scale_zero, scale_one]

/-- The end of a chord. -/
theorem chord_one (a b : Quat ℝ) : a.chord b 1 = b := by
  rw [chord, sub_self, scale_zero_add, scale_one]

/-- The start of an arc, stretched by the sine of the angle. -/
theorem arc_zero (a b : Quat ℝ) (θ : ℝ) : a.arc b θ 0 = a.scale (Real.sin θ) := by
  rw [arc, mul_zero, Real.sin_zero, add_scale_zero, sub_zero, mul_one]

/-- The end of an arc, stretched by the sine of the angle. -/
theorem arc_one (a b : Quat ℝ) (θ : ℝ) : a.arc b θ 1 = b.scale (Real.sin θ) := by
  rw [arc, sub_self, mul_zero, Real.sin_zero, scale_zero_add, mul_one]

/-- Interpolation starts at the first quaternion. -/
theorem IsUnit.slerp_zero (ha : a.IsUnit) (b : Quat ℝ) : a.slerp b 0 = a := by
  rw [slerp_eq]
  split
  · rw [chord_zero, ha.normalize_eq]
  · next hfar => rw [arc_zero, unscale_scale (sin_arccos_ne_zero (dot_toward_nonneg a b) hfar)]

/-- Interpolation ends at the second quaternion, or at its opposite. -/
theorem IsUnit.slerp_one (hb : b.IsUnit) (a : Quat ℝ) : a.slerp b 1 = a.toward b := by
  rw [slerp_eq]
  split
  · rw [chord_one, (hb.toward a).normalize_eq]
  · next hfar => rw [arc_one, unscale_scale (sin_arccos_ne_zero (dot_toward_nonneg a b) hfar)]

end Quat

/-! ## Transforms -/

theorem Vec3.lerp_zero (a b : Vec3 ℝ) : a.lerp b 0 = a := by
  simp only [lerp, zipWith, Scalar.lerp, sub_zero, mul_one, mul_zero, add_zero]

theorem Vec3.lerp_one (a b : Vec3 ℝ) : a.lerp b 1 = b := by
  simp only [lerp, zipWith, Scalar.lerp, sub_self, mul_zero, zero_add, mul_one]

namespace Transform

/-- The transforms are the same but for which of the two quaternions of a rotation they have. -/
structure EqUpToSign (a b : Transform ℝ) : Prop where
  translation : a.translation = b.translation
  rotation : a.rotation = b.rotation ∨ a.rotation = -b.rotation
  scale : a.scale = b.scale

variable {a b : Transform ℝ}

theorem EqUpToSign.refl (a : Transform ℝ) : a.EqUpToSign a := ⟨rfl, .inl rfl, rfl⟩

/-- Interpolation starts at the first transform. -/
theorem lerp_zero (ha : a.rotation.IsUnit) (b : Transform ℝ) : a.lerp b 0 = a := by
  rw [lerp, ha.slerp_zero, ha.normalize_eq, Vec3.lerp_zero, Vec3.lerp_zero]

theorem rotation_lerp_one (a : Transform ℝ) (hb : b.rotation.IsUnit) :
    (a.lerp b 1).rotation = a.rotation.toward b.rotation := by
  rw [lerp, hb.slerp_one, (hb.toward a.rotation).normalize_eq]

/-- Interpolation ends at the second transform. -/
theorem eqUpToSign_lerp_one (a : Transform ℝ) (hb : b.rotation.IsUnit) : (a.lerp b 1).EqUpToSign b where
  translation := Vec3.lerp_one a.translation b.translation
  rotation := by
    rw [rotation_lerp_one a hb]
    exact Quat.toward_eq_or a.rotation b.rotation
  scale := Vec3.lerp_one a.scale b.scale

end Transform
end Armature
