import Armature.Proofs.Bonewise
import Armature.Proofs.Interpolation
import Armature.Proofs.UnitPose

/-!
# A layer undoes a difference

The difference between two poses, layered at full strength on top of the reference, gives the source back in exact
arithmetic (`Pose.layer_difference`). At full strength too the additive is interpolated from the identity first, so that
what is restored may have the other one of the two quaternions of its rotation.
-/

namespace Armature

/-! ## Quaternions -/

namespace Quat

variable {b : Quat ℝ}

theorem mul_def (a b : Quat ℝ) :
    a * b =
      ⟨a.w * b.x + a.x * b.w + a.y * b.z - a.z * b.y, a.w * b.y - a.x * b.z + a.y * b.w + a.z * b.x,
        a.w * b.z + a.x * b.y - a.y * b.x + a.z * b.w, a.w * b.w - a.x * b.x - a.y * b.y - a.z * b.z⟩ := rfl

theorem neg_mul (a b : Quat ℝ) : -a * b = -(a * b) := by
  simp only [mul_def, neg_def, mk.injEq]
  refine ⟨?_, ?_, ?_, ?_⟩ <;> ring

/-- The conjugate of a quaternion and the quaternion itself leave the square of its length. -/
theorem mul_conjugate_mul (a b : Quat ℝ) : a * b.conjugate * b = a.scale (b.dot b) := by
  simp only [mul_def, conjugate, scale, dot, mk.injEq]
  refine ⟨?_, ?_, ?_, ?_⟩ <;> ring

theorem IsUnit.mul_conjugate_mul (hb : b.IsUnit) (a : Quat ℝ) : a * b.conjugate * b = a := by
  rw [Quat.mul_conjugate_mul, hb]
  simp only [scale, mul_one]

end Quat

/-! ## Transforms -/

/-- No component is zero. -/
structure Vec3.NonZero (a : Vec3 ℝ) : Prop where
  x : a.x ≠ 0
  y : a.y ≠ 0
  z : a.z ≠ 0

namespace Vec3

theorem nonZero_ones : (ones : Vec3 ℝ).NonZero := ⟨one_ne_zero, one_ne_zero, one_ne_zero⟩

theorem add_sub_eq (a b : Vec3 ℝ) : a + (b - a) = b := by
  change (⟨a.x + (b.x - a.x), a.y + (b.y - a.y), a.z + (b.z - a.z)⟩ : Vec3 ℝ) = b
  simp only [add_sub_cancel]

theorem NonZero.mul_div_eq {a : Vec3 ℝ} (h : a.NonZero) (b : Vec3 ℝ) : a * (b / a) = b := by
  change (⟨a.x * (b.x / a.x), a.y * (b.y / a.y), a.z * (b.z / a.z)⟩ : Vec3 ℝ) = b
  simp only [mul_div_cancel₀ _ h.x, mul_div_cancel₀ _ h.y, mul_div_cancel₀ _ h.z]

end Vec3

namespace Transform

variable {a reference source : Transform ℝ}

/-- On top of the reference, the difference gives the source back. -/
theorem EqUpToSign.applyTo_difference (h : a.EqUpToSign (source.difference reference))
    (hsource : source.rotation.IsUnit) (hreference : reference.rotation.IsUnit) (hscale : reference.scale.NonZero) :
    (a.applyTo reference).EqUpToSign source where
  translation := by
    change reference.translation + a.translation = source.translation
    rw [h.translation]
    exact Vec3.add_sub_eq reference.translation source.translation
  rotation := by
    have hdifference : (source.difference reference).rotation = source.rotation * reference.rotation.conjugate :=
      (hsource.mul hreference.conjugate).normalize_eq
    have hrestored : (source.difference reference).rotation * reference.rotation = source.rotation := by
      rw [hdifference, hreference.mul_conjugate_mul]
    change (a.rotation * reference.rotation).normalize = source.rotation ∨
      (a.rotation * reference.rotation).normalize = -source.rotation
    -- the sign of the additive goes through the product
    rcases h.rotation with hsame | hopposite
    · rw [hsame, hrestored, hsource.normalize_eq]
      exact .inl rfl
    · rw [hopposite, Quat.neg_mul, hrestored, hsource.neg.normalize_eq]
      exact .inr rfl
  scale := by
    change reference.scale * a.scale = source.scale
    rw [h.scale]
    exact hscale.mul_div_eq source.scale

end Transform

/-! ## Poses -/

namespace Pose

/-- No component of a scale is zero. -/
def NonZeroScales (pose : Pose ℝ) : Prop :=
  ∀ (name : String) (transform : Transform ℝ), pose[name]? = some transform → transform.scale.NonZero

/-- A bone that is missing counts as the identity. -/
theorem NonZeroScales.getD {pose : Pose ℝ} (h : pose.NonZeroScales) (name : String) :
    (pose[name]?.getD Transform.identity).scale.NonZero := by
  cases hget : pose[name]? with
  | some transform => exact h name transform hget
  | none => exact Vec3.nonZero_ones

theorem not_one_beq_zero : ¬ (1 : ℝ) == 0 := by
  intro h
  exact one_ne_zero (of_decide_eq_true h)

/-- The difference of two poses, layered at full strength on top of the reference, has the bones of the tree that one of
    the two poses has, each with the transform of the source, or with the identity if the source lacks the bone. -/
theorem layer_difference {reference source : Pose ℝ} (hreference : reference.IsUnit) (hsource : source.IsUnit)
    (hscale : reference.NonZeroScales) (tree : BoneTree ℝ) :
    let restored := reference.layer (reference.difference source tree) tree 1
    (∀ name, name ∈ restored ↔ name ∈ tree.names ∧ (name ∈ reference ∨ name ∈ source)) ∧
    ∀ (name : String) (transform : Transform ℝ), restored[name]? = some transform →
      transform.EqUpToSign (source[name]?.getD Transform.identity) := by
  intro restored
  have hadditive := (bonewise_difference (α := ℝ)).mem_iff reference source tree
  have hlayer := (bonewise_layer not_one_beq_zero).mem_iff reference (reference.difference source tree) tree
  have hrestored : ∀ name, name ∈ restored ↔ name ∈ tree.names ∧ (name ∈ reference ∨ name ∈ source) := by
    intro name
    rw [hlayer name, hadditive name]
    tauto
  refine ⟨hrestored, ?_⟩
  intro name transform htransform
  -- a bone that is restored is in the difference, whichever of the two poses it is in
  have hname : name ∈ restored :=
    Std.ExtTreeMap.mem_iff_isSome_getElem?.2 (Option.isSome_of_eq_some htransform)
  have hdifference := getElem?_difference ((hadditive name).2 ((hrestored name).1 hname))
  rw [getElem?_layer not_one_beq_zero hname, hdifference, Option.getD_some] at htransform
  obtain rfl := Option.some.inj htransform
  have hfull := Transform.eqUpToSign_lerp_one .identity
    (Transform.isUnit_difference (hsource.getD name) (hreference.getD name))
  exact hfull.applyTo_difference (hsource.getD name) (hreference.getD name) (hscale.getD name)

/-! ### A fall -/

noncomputable def statue : BoneTree ℝ :=
  ⟨⟨"hip", .identity⟩,
    .cons ⟨"arm", .identity⟩ .nil <| .cons ⟨"leg", .identity⟩ .nil <| .cons ⟨"tail", .identity⟩ .nil .nil⟩

/-- Moved, turned by half a turn about the third axis, and mirrored. -/
noncomputable def facing : Transform ℝ := ⟨⟨1, 0, 0⟩, ⟨0, 0, 1, 0⟩, ⟨1, -1, 1⟩⟩

/-- Moved, turned by half a turn about the first axis, and flattened. -/
noncomputable def lying : Transform ℝ := ⟨⟨0, 1, 0⟩, ⟨1, 0, 0, 0⟩, ⟨1, 1, 0⟩⟩

/-- A pose of two bones with one transform. -/
def ofPair (first second : String) (transform : Transform ℝ) : Pose ℝ :=
  ((∅ : Pose ℝ).insert first transform).insert second transform

theorem eq_of_getElem?_ofPair {first second name : String} {transform found : Transform ℝ}
    (h : (ofPair first second transform)[name]? = some found) : found = transform := by
  rw [ofPair, Std.ExtTreeMap.getElem?_insert, Std.ExtTreeMap.getElem?_insert] at h
  split at h
  · exact (Option.some.inj h).symm
  · split at h
    · exact (Option.some.inj h).symm
    · rw [Std.ExtTreeMap.getElem?_empty] at h
      cases h

/-- One bone is in both poses, one in the reference, one in the source, and one in neither of them. -/
theorem layer_difference_statue :
    let upright := ofPair "hip" "arm" facing
    let fallen := ofPair "hip" "leg" lying
    let restored := upright.layer (upright.difference fallen statue) statue 1
    upright.IsUnit ∧ fallen.IsUnit ∧ upright.NonZeroScales ∧
    (∃ transform, restored["hip"]? = some transform ∧ transform.EqUpToSign lying) ∧
    (∃ transform, restored["arm"]? = some transform ∧ transform.EqUpToSign .identity) ∧
    (∃ transform, restored["leg"]? = some transform ∧ transform.EqUpToSign lying) ∧ "tail" ∉ restored := by
  intro upright fallen restored
  have hupright : upright.IsUnit := by
    intro name transform h
    obtain rfl := eq_of_getElem?_ofPair h
    simp [facing, Quat.IsUnit, Quat.dot]
  have hfallen : fallen.IsUnit := by
    intro name transform h
    obtain rfl := eq_of_getElem?_ofPair h
    simp [lying, Quat.IsUnit, Quat.dot]
  have hscale : upright.NonZeroScales := by
    intro name transform h
    obtain rfl := eq_of_getElem?_ofPair h
    exact ⟨one_ne_zero, neg_ne_zero.2 one_ne_zero, one_ne_zero⟩
  obtain ⟨hmem, hvalue⟩ := layer_difference hupright hfallen hscale statue
  have hfound : ∀ name, name ∈ statue.names ∧ (name ∈ upright ∨ name ∈ fallen) →
      ∃ transform, restored[name]? = some transform ∧
        transform.EqUpToSign (fallen[name]?.getD Transform.identity) := by
    intro name hname
    obtain ⟨transform, htransform⟩ :=
      Option.isSome_iff_exists.1 (Std.ExtTreeMap.mem_iff_isSome_getElem?.1 ((hmem name).2 hname))
    exact ⟨transform, htransform, hvalue name transform htransform⟩
  refine ⟨hupright, hfallen, hscale, hfound "hip" (by decide), hfound "arm" (by decide), hfound "leg" (by decide), ?_⟩
  intro htail
  exact absurd ((hmem "tail").1 htail).2 (by decide)

end Pose
end Armature
