import Mathlib.Analysis.SpecialFunctions.Trigonometric.Inverse
import Armature.Track

/-!
# Quaternions of length one

In exact arithmetic what is computed from quaternions of length one has length one again: products, conjugates, and the
points of the arc between two of them, the part of it that is replaced by its chord included. On the way nothing is
divided by zero; what the divisors of an operation are is said beside its statement, by a predicate that is named after
the operation (`Quat.NormalizeDefined` and those that are built from it).
-/

namespace Armature

/-- Exact arithmetic. -/
noncomputable instance : Scalar ℝ where
  decLt := inferInstance
  decLe := inferInstance
  beq a b := decide (a = b)
  totalLe a b := decide (a ≤ b)
  sqrt := Real.sqrt
  sin := Real.sin
  cos := Real.cos
  acos := Real.arccos
  signum a := if a < 0 then -1 else 1

/-! ## Divisors -/

section Defined

variable {α : Type} [Scalar α]

namespace Quat

/-- A quaternion that is normalized is divided by its length, which must not be zero. -/
def NormalizeDefined (a : Quat α) : Prop := Scalar.sqrt (a.dot a) ≠ 0

/-- Near to each other, two quaternions are interpolated by normalizing a point of the chord, and else by dividing by the
    sine of the angle between them. -/
def SlerpDefined (a b : Quat α) (t : α) : Prop :=
  let d := a.dot b
  let (b, d) := if d < 0 then (-b, -d) else (b, d)
  if nearlyParallel < d then (a.scale (1 - t) + b.scale t).NormalizeDefined
  else Scalar.sin (Scalar.acos d) ≠ 0

/-- The interpolation of tracks and transforms normalizes what `slerp` returns. -/
def InterpolateDefined (a b : Quat α) (t : α) : Prop := a.SlerpDefined b t ∧ (a.slerp b t).NormalizeDefined

end Quat

namespace Transform

def LerpDefined (a b : Transform α) (t : α) : Prop := a.rotation.InterpolateDefined b.rotation t

def DifferenceDefined (a reference : Transform α) : Prop :=
  (a.rotation * reference.rotation.conjugate).NormalizeDefined

def ApplyToDefined (a target : Transform α) : Prop := (a.rotation * target.rotation).NormalizeDefined

end Transform

end Defined

namespace Quat

variable {a b : Quat ℝ}

/-! ## Length -/

/-- The quaternion has length one. -/
def IsUnit (a : Quat ℝ) : Prop := a.dot a = 1

theorem isUnit_identity : (identity : Quat ℝ).IsUnit := by
  simp [IsUnit, identity, dot]

theorem IsUnit.neg (h : a.IsUnit) : (-a).IsUnit := by
  have hneg : (-a).dot (-a) = a.dot a := by
    change -a.x * -a.x + -a.y * -a.y + -a.z * -a.z + -a.w * -a.w = _
    rw [dot]
    ring
  exact hneg.trans h

theorem IsUnit.conjugate (h : a.IsUnit) : a.conjugate.IsUnit := by
  have hconjugate : a.conjugate.dot a.conjugate = a.dot a := by
    simp only [Quat.conjugate, dot]
    ring
  exact hconjugate.trans h

/-- The length of a product is the product of the lengths. -/
theorem dot_mul_self (a b : Quat ℝ) : (a * b).dot (a * b) = a.dot a * b.dot b := by
  change dot ⟨_, _, _, _⟩ ⟨_, _, _, _⟩ = _
  simp only [dot]
  ring

theorem IsUnit.mul (ha : a.IsUnit) (hb : b.IsUnit) : (a * b).IsUnit := by
  rw [IsUnit, dot_mul_self, ha, hb, one_mul]

theorem dot_unscale_self (a : Quat ℝ) (s : ℝ) : (a.unscale s).dot (a.unscale s) = a.dot a / s ^ 2 := by
  simp only [unscale, dot]
  ring

theorem dot_combination_self (a b : Quat ℝ) (r s : ℝ) :
    (a.scale r + b.scale s).dot (a.scale r + b.scale s) =
      r ^ 2 * a.dot a + 2 * (r * s) * a.dot b + s ^ 2 * b.dot b := by
  change dot ⟨_, _, _, _⟩ ⟨_, _, _, _⟩ = _
  simp only [scale, dot]
  ring

theorem IsUnit.dot_combination_self (ha : a.IsUnit) (hb : b.IsUnit) (r s : ℝ) :
    (a.scale r + b.scale s).dot (a.scale r + b.scale s) = r ^ 2 + s ^ 2 + 2 * (r * s) * a.dot b := by
  rw [Quat.dot_combination_self, ha, hb]
  ring

theorem dot_self_nonneg (a : Quat ℝ) : 0 ≤ a.dot a :=
  add_nonneg (add_nonneg (add_nonneg (mul_self_nonneg a.x) (mul_self_nonneg a.y)) (mul_self_nonneg a.z))
    (mul_self_nonneg a.w)

/-- The distance between two quaternions of length one is at least zero. -/
theorem IsUnit.dot_le_one (ha : a.IsUnit) (hb : b.IsUnit) : a.dot b ≤ 1 := by
  have hdistance := ha.dot_combination_self hb 1 (-1)
  have hnonneg := dot_self_nonneg (a.scale 1 + b.scale (-1))
  linarith

/-! ## Normalization -/

theorem normalizeDefined_iff : a.NormalizeDefined ↔ 0 < a.dot a := Real.sqrt_ne_zero'

theorem IsUnit.normalizeDefined (h : a.IsUnit) : a.NormalizeDefined := by
  rw [normalizeDefined_iff, h]
  exact one_pos

theorem NormalizeDefined.isUnit_normalize (h : a.NormalizeDefined) : a.normalize.IsUnit := by
  rw [normalizeDefined_iff] at h
  have hsqrt : Scalar.sqrt (a.dot a) ^ 2 = a.dot a := Real.sq_sqrt h.le
  rw [IsUnit, normalize, dot_unscale_self, hsqrt, div_self h.ne']

/-! ## Arcs -/

/-- The second of two quaternions, or its opposite, whichever is on the side of the first. -/
noncomputable def toward (a b : Quat ℝ) : Quat ℝ := if a.dot b < 0 then -b else b

/-- The point of the chord. -/
noncomputable def chord (a b : Quat ℝ) (t : ℝ) : Quat ℝ := a.scale (1 - t) + b.scale t

/-- The point of the arc of an angle, stretched by the sine of the angle. -/
noncomputable def arc (a b : Quat ℝ) (θ t : ℝ) : Quat ℝ :=
  a.scale (Real.sin (θ * (1 - t))) + b.scale (Real.sin (θ * t))

theorem dot_neg (a b : Quat ℝ) : a.dot (-b) = -a.dot b := by
  change a.x * -b.x + a.y * -b.y + a.z * -b.z + a.w * -b.w = _
  rw [dot]
  ring

theorem IsUnit.toward (hb : b.IsUnit) (a : Quat ℝ) : (a.toward b).IsUnit := by
  unfold Quat.toward
  split
  · exact hb.neg
  · exact hb

theorem dot_toward (a b : Quat ℝ) : a.dot (a.toward b) = |a.dot b| := by
  unfold toward
  split
  · next hneg => rw [dot_neg, abs_of_neg hneg]
  · next hnonneg => rw [abs_of_nonneg (not_lt.1 hnonneg)]

theorem dot_toward_nonneg (a b : Quat ℝ) : 0 ≤ a.dot (a.toward b) := by
  rw [dot_toward]
  exact abs_nonneg _

/-- The pair that `slerp` goes on with. -/
theorem toward_pair (a b : Quat ℝ) :
    (if a.dot b < 0 then (-b, -a.dot b) else (b, a.dot b)) = (a.toward b, a.dot (a.toward b)) := by
  unfold toward
  split
  · rw [dot_neg]
  · rfl

theorem slerp_eq (a b : Quat ℝ) (t : ℝ) :
    a.slerp b t =
      if nearlyParallel < a.dot (a.toward b) then (a.chord (a.toward b) t).normalize
      else (a.arc (a.toward b) (Real.arccos (a.dot (a.toward b))) t).unscale
        (Real.sin (Real.arccos (a.dot (a.toward b)))) := by
  simp only [slerp, toward_pair]
  rfl

theorem slerpDefined_eq (a b : Quat ℝ) (t : ℝ) :
    a.SlerpDefined b t =
      if nearlyParallel < a.dot (a.toward b) then (a.chord (a.toward b) t).NormalizeDefined
      else Real.sin (Real.arccos (a.dot (a.toward b))) ≠ 0 := by
  simp only [SlerpDefined, toward_pair]
  rfl

/-- A chord between quaternions that are nearly parallel does not come near zero, wherever on its line the point is. -/
theorem IsUnit.normalizeDefined_chord (ha : a.IsUnit) (hb : b.IsUnit) (h : nearlyParallel < a.dot b) (t : ℝ) :
    (a.chord b t).NormalizeDefined := by
  have hle := ha.dot_le_one hb
  have hnear : 0.5 < a.dot b := by
    refine lt_trans ?_ h
    unfold nearlyParallel
    norm_num
  -- the point in the middle is the nearest one
  have hmiddle : t * (1 - t) ≤ 1 / 4 := by nlinarith [sq_nonneg (t - 1 / 2)]
  rw [normalizeDefined_iff, chord, ha.dot_combination_self hb]
  nlinarith

theorem sin_sq_add (x y : ℝ) :
    Real.sin x ^ 2 + Real.sin y ^ 2 + 2 * (Real.sin x * Real.sin y) * Real.cos (x + y) = Real.sin (x + y) ^ 2 := by
  rw [Real.cos_add, Real.sin_add]
  have hx := Real.sin_sq_add_cos_sq x
  have hy := Real.sin_sq_add_cos_sq y
  linear_combination (-Real.sin y ^ 2) * hx - Real.sin x ^ 2 * hy

theorem IsUnit.dot_arc_self (ha : a.IsUnit) (hb : b.IsUnit) {θ : ℝ} (h : Real.cos θ = a.dot b) (t : ℝ) :
    (a.arc b θ t).dot (a.arc b θ t) = Real.sin θ ^ 2 := by
  have hsum : θ * (1 - t) + θ * t = θ := by ring
  have hsin := sin_sq_add (θ * (1 - t)) (θ * t)
  rw [hsum, h] at hsin
  rw [arc, ha.dot_combination_self hb, hsin]

/-- The sine of the angle between quaternions that are not nearly parallel. -/
theorem sin_arccos_ne_zero {d : ℝ} (hnonneg : 0 ≤ d) (h : ¬ nearlyParallel < d) : Real.sin (Real.arccos d) ≠ 0 := by
  have hlt : d < 1 := by
    refine (not_lt.1 h).trans_lt ?_
    unfold nearlyParallel
    norm_num
  rw [Real.sin_arccos]
  exact Real.sqrt_ne_zero'.2 (by nlinarith)

theorem cos_arccos {d : ℝ} (hnonneg : 0 ≤ d) (h : ¬ nearlyParallel < d) : Real.cos (Real.arccos d) = d := by
  refine Real.cos_arccos (by linarith) ((not_lt.1 h).trans ?_)
  unfold nearlyParallel
  norm_num

variable (ha : a.IsUnit) (hb : b.IsUnit) (t : ℝ)

include ha hb

theorem IsUnit.slerpDefined : a.SlerpDefined b t := by
  rw [slerpDefined_eq]
  split
  · next hnear => exact ha.normalizeDefined_chord (hb.toward a) hnear t
  · next hfar => exact sin_arccos_ne_zero (dot_toward_nonneg a b) hfar

theorem IsUnit.slerp : (a.slerp b t).IsUnit := by
  have hnonneg := dot_toward_nonneg a b
  rw [slerp_eq]
  split
  · next hnear => exact (ha.normalizeDefined_chord (hb.toward a) hnear t).isUnit_normalize
  · next hfar =>
    have hsin := sin_arccos_ne_zero hnonneg hfar
    rw [IsUnit, dot_unscale_self, ha.dot_arc_self (hb.toward a) (cos_arccos hnonneg hfar)]
    exact div_self (pow_ne_zero 2 hsin)

theorem IsUnit.interpolateDefined : a.InterpolateDefined b t :=
  ⟨ha.slerpDefined hb t, (ha.slerp hb t).normalizeDefined⟩

end Quat

/-! ## Transforms -/

namespace Transform

variable {a b : Transform ℝ}

theorem isUnit_identity : (identity : Transform ℝ).rotation.IsUnit := Quat.isUnit_identity

theorem isUnit_lerp (ha : a.rotation.IsUnit) (hb : b.rotation.IsUnit) (t : ℝ) : (a.lerp b t).rotation.IsUnit :=
  (ha.slerp hb t).normalizeDefined.isUnit_normalize

theorem isUnit_difference (ha : a.rotation.IsUnit) (hb : b.rotation.IsUnit) : (a.difference b).rotation.IsUnit :=
  (ha.mul hb.conjugate).normalizeDefined.isUnit_normalize

theorem isUnit_applyTo (ha : a.rotation.IsUnit) (hb : b.rotation.IsUnit) : (a.applyTo b).rotation.IsUnit :=
  (ha.mul hb).normalizeDefined.isUnit_normalize

end Transform
end Armature
