import Armature.Proofs.Bonewise
import Armature.Proofs.Interpolation
import Armature.Proofs.UnitPose

/-!
# Blends are symmetric

In exact arithmetic a blend of two poses is a blend of the second pose with the first, at the weight that is the rest to
one (`Pose.blend_swap`); only of the two quaternions of a rotation it may have the other. An interpolation turns its
second operand to the side of the first. If the two are on one side, the way back is the way itself. If they are not,
the way goes from the first to the opposite of the second, and the way back from the second to the opposite of the
first.
-/

namespace Armature

/-! ## Quaternions -/

namespace Quat

variable {a b : Quat ℝ}

protected theorem add_comm (a b : Quat ℝ) : a + b = b + a := by
  simp only [add_def, add_comm]

protected theorem neg_neg (a : Quat ℝ) : - -a = a := by
  simp only [neg_def, neg_neg]

theorem dot_comm (a b : Quat ℝ) : a.dot b = b.dot a := by
  unfold dot
  ring

theorem neg_dot (a b : Quat ℝ) : (-a).dot b = -a.dot b := by
  rw [dot_comm, dot_neg, dot_comm]

theorem neg_dot_neg (a b : Quat ℝ) : (-a).dot (-b) = a.dot b := by
  rw [neg_dot, dot_neg, neg_neg]

theorem neg_unscale (a : Quat ℝ) (s : ℝ) : (-a).unscale s = -a.unscale s := by
  simp only [unscale, neg_def, neg_div]

theorem neg_normalize (a : Quat ℝ) : (-a).normalize = -a.normalize := by
  rw [normalize, neg_dot_neg, neg_unscale, ← normalize]

theorem neg_normalizeDefined (a : Quat ℝ) : (-a).NormalizeDefined ↔ a.NormalizeDefined := by
  rw [NormalizeDefined, neg_dot_neg, ← NormalizeDefined]

/-- The opposite of one of two summands, with the summands' roles exchanged. -/
theorem neg_scale_add (a b : Quat ℝ) (r s : ℝ) : (-a).scale r + b.scale s = -(a.scale r + (-b).scale s) := by
  simp only [add_def, neg_def, scale, mk.injEq]
  refine ⟨?_, ?_, ?_, ?_⟩ <;> ring

/-! ### Chords and arcs backwards -/

theorem chord_swap (a b : Quat ℝ) (t : ℝ) : b.chord a (1 - t) = a.chord b t := by
  rw [chord, chord, sub_sub_cancel, Quat.add_comm]

theorem arc_swap (a b : Quat ℝ) (θ t : ℝ) : b.arc a θ (1 - t) = a.arc b θ t := by
  rw [arc, arc, sub_sub_cancel, Quat.add_comm]

theorem neg_chord (a b : Quat ℝ) (t : ℝ) : (-a).chord b t = -a.chord (-b) t := neg_scale_add a b _ _

theorem neg_arc (a b : Quat ℝ) (θ t : ℝ) : (-a).arc b θ t = -a.arc (-b) θ t := neg_scale_add a b _ _

/-- Interpolation between quaternions that are on one side. -/
noncomputable def between (a b : Quat ℝ) (t : ℝ) : Quat ℝ :=
  if nearlyParallel < a.dot b then (a.chord b t).normalize
  else (a.arc b (Real.arccos (a.dot b)) t).unscale (Real.sin (Real.arccos (a.dot b)))

/-- What interpolation between quaternions that are on one side divides by is not zero. -/
def BetweenDefined (a b : Quat ℝ) (t : ℝ) : Prop :=
  if nearlyParallel < a.dot b then (a.chord b t).NormalizeDefined
  else Real.sin (Real.arccos (a.dot b)) ≠ 0

theorem slerp_eq_between (a b : Quat ℝ) (t : ℝ) : a.slerp b t = a.between (a.toward b) t := slerp_eq a b t

theorem slerpDefined_iff_between (a b : Quat ℝ) (t : ℝ) : a.SlerpDefined b t ↔ a.BetweenDefined (a.toward b) t :=
  iff_of_eq (slerpDefined_eq a b t)

theorem between_swap (a b : Quat ℝ) (t : ℝ) : b.between a (1 - t) = a.between b t := by
  rw [between, dot_comm b a, chord_swap, arc_swap, ← between]

theorem betweenDefined_swap (a b : Quat ℝ) (t : ℝ) : b.BetweenDefined a (1 - t) ↔ a.BetweenDefined b t := by
  rw [BetweenDefined, dot_comm b a, chord_swap, ← BetweenDefined]

theorem neg_between (a b : Quat ℝ) (t : ℝ) : (-a).between b t = -a.between (-b) t := by
  unfold between
  rw [neg_dot, dot_neg, neg_chord, neg_arc, neg_normalize, neg_unscale, apply_ite Neg.neg]

theorem neg_betweenDefined (a b : Quat ℝ) (t : ℝ) : (-a).BetweenDefined b t ↔ a.BetweenDefined (-b) t := by
  unfold BetweenDefined
  rw [neg_dot, dot_neg, neg_chord, neg_normalizeDefined]

/-- Each of two quaternions is on the side of the other, or neither is. -/
theorem toward_cases (a b : Quat ℝ) :
    (a.toward b = b ∧ b.toward a = a) ∨ (a.toward b = -b ∧ b.toward a = -a) := by
  unfold toward
  rw [dot_comm b a]
  split
  · exact .inr ⟨rfl, rfl⟩
  · exact .inl ⟨rfl, rfl⟩

/-- The way back is the way itself, or goes along the opposites. -/
theorem slerp_swap (a b : Quat ℝ) (t : ℝ) :
    a.slerp b t = b.slerp a (1 - t) ∨ a.slerp b t = -b.slerp a (1 - t) := by
  rw [slerp_eq_between, slerp_eq_between]
  rcases toward_cases a b with ⟨hb, ha⟩ | ⟨hb, ha⟩
  · rw [hb, ha, between_swap]
    exact .inl rfl
  · rw [hb, ha, between_swap, neg_between, Quat.neg_neg]
    exact .inr rfl

theorem slerpDefined_swap (a b : Quat ℝ) (t : ℝ) : a.SlerpDefined b t ↔ b.SlerpDefined a (1 - t) := by
  rw [slerpDefined_iff_between, slerpDefined_iff_between]
  rcases toward_cases a b with ⟨hb, ha⟩ | ⟨hb, ha⟩
  · rw [hb, ha, betweenDefined_swap]
  · rw [hb, ha, betweenDefined_swap, neg_betweenDefined]

theorem interpolateDefined_swap (a b : Quat ℝ) (t : ℝ) :
    a.InterpolateDefined b t ↔ b.InterpolateDefined a (1 - t) := by
  rw [InterpolateDefined, InterpolateDefined, slerpDefined_swap]
  rcases slerp_swap a b t with h | h
  · rw [h]
  · rw [h, neg_normalizeDefined]

end Quat

/-! ## Transforms -/

theorem Vec3.lerp_swap (a b : Vec3 ℝ) (t : ℝ) : a.lerp b t = b.lerp a (1 - t) := by
  have hscalar : ∀ p q : ℝ, Scalar.lerp p q t = Scalar.lerp q p (1 - t) := by
    intro p q
    unfold Scalar.lerp
    ring
  simp only [lerp, zipWith, hscalar]

theorem Transform.eqUpToSign_lerp_swap (a b : Transform ℝ) (t : ℝ) : (a.lerp b t).EqUpToSign (b.lerp a (1 - t)) where
  translation := Vec3.lerp_swap a.translation b.translation t
  rotation := by
    change (a.rotation.slerp b.rotation t).normalize = (b.rotation.slerp a.rotation (1 - t)).normalize ∨
      (a.rotation.slerp b.rotation t).normalize = -(b.rotation.slerp a.rotation (1 - t)).normalize
    rcases Quat.slerp_swap a.rotation b.rotation t with h | h
    · exact .inl (congrArg _ h)
    · exact .inr ((congrArg _ h).trans (Quat.neg_normalize _))
  scale := Vec3.lerp_swap a.scale b.scale t

/-! ## Poses -/

namespace Pose

/-- Two poses both lack a bone, or they have transforms for it that are the same up to the sign of the rotation. -/
def AgreeAt (a b : Pose ℝ) (name : String) : Prop := Option.Rel Transform.EqUpToSign a[name]? b[name]?

/-- The poses have the same bones, with transforms that are the same up to the signs of the rotations. -/
def EqUpToSign (a b : Pose ℝ) : Prop := ∀ name, a.AgreeAt b name

theorem AgreeAt.of_eq {a b : Pose ℝ} {name : String} (h : a[name]? = b[name]?) : a.AgreeAt b name := by
  rw [AgreeAt, h]
  cases b[name]? with
  | some transform => exact .some (.refl transform)
  | none => exact .none

theorem EqUpToSign.refl (a : Pose ℝ) : a.EqUpToSign a := fun _ => .of_eq rfl

/-- Exact weights are compared as numbers. -/
theorem weight_beq_iff {x y : ℝ} : x == y ↔ x = y := decide_eq_true_iff

theorem blend_zero (a b : Pose ℝ) (tree : BoneTree ℝ) : a.blend b tree 0 = a := if_pos (weight_beq_iff.2 rfl)

theorem blend_one (a b : Pose ℝ) (tree : BoneTree ℝ) : a.blend b tree 1 = b :=
  (if_neg (mt weight_beq_iff.1 one_ne_zero)).trans (if_pos (weight_beq_iff.2 rfl))

/-- Which bones a blend interpolates does not depend on the order of the poses. -/
theorem agree_blendBone_swap (a b : Pose ℝ) (weight : ℝ) (name : String) :
    Option.Rel Transform.EqUpToSign (blendBone a b weight name) (blendBone b a (1 - weight) name) := by
  unfold blendBone
  cases a[name]? with
  | some p =>
    cases b[name]? with
    | some q => exact .some (p.eqUpToSign_lerp_swap q weight)
    | none => exact .some (.refl p)
  | none =>
    cases b[name]? with
    | some q => exact .some (.refl q)
    | none => exact .none

/-- A blend has the same bones as the blend of the poses in the other order at the rest of the weight to one, with the
    same translations and scales, and with the same rotations up to the signs of the quaternions. The one divides by
    nothing that is zero exactly if the other does not. -/
theorem blend_swap (a b : Pose ℝ) (tree : BoneTree ℝ) (weight : ℝ) :
    (a.blend b tree weight).EqUpToSign (b.blend a tree (1 - weight)) ∧
    (a.BlendDefined b tree weight ↔ b.BlendDefined a tree (1 - weight)) := by
  constructor
  · by_cases hzero : weight = 0
    · rw [hzero, sub_zero, blend_zero, blend_one]
      exact .refl a
    · by_cases hone : weight = 1
      · rw [hone, sub_self, blend_zero, blend_one]
        exact .refl b
      · -- neither of the two returns a pose as it is
        have hrest_zero : 1 - weight ≠ 0 := sub_ne_zero.2 (Ne.symm hone)
        have hrest_one : 1 - weight ≠ 1 := mt sub_eq_self.1 hzero
        rw [blend_eq_collect (mt weight_beq_iff.1 hzero) (mt weight_beq_iff.1 hone),
          blend_eq_collect (mt weight_beq_iff.1 hrest_zero) (mt weight_beq_iff.1 hrest_one)]
        intro name
        rw [AgreeAt, getElem?_collect, getElem?_collect]
        split
        · exact agree_blendBone_swap a b weight name
        · exact .none
  · constructor
    · intro h name hname q p hq hp
      exact (Quat.interpolateDefined_swap p.rotation q.rotation weight).1 (h name hname p q hp hq)
    · intro h name hname p q hp hq
      exact (Quat.interpolateDefined_swap p.rotation q.rotation weight).2 (h name hname q p hq hp)

end Pose
end Armature
