import Armature.Pose
import Armature.Proofs.UnitQuaternion

/-!
# Poses of rotations of length one

The operations on poses keep it, bone by bone, that all rotations have length one, and normalize no quaternion of length
zero then. The predicates that end in `Defined` go on from those on quaternions: they say of an operation on poses that
nothing it normalizes has length zero.
-/

namespace Armature

section Defined

variable {α : Type} [Scalar α]

/-- A position is interpolated between the keys around it, if there are such keys. -/
def Track.SampleDefined (track : Track α (Quat α)) (time : α) : Prop :=
  ∀ a b, segment? time track.keys = some (a, b) →
    a.value.InterpolateDefined b.value (progress a.time b.time time)

namespace Pose

def SampleDefined (clip : Clip α) (tree : BoneTree α) (time : α) : Prop :=
  ∀ bone ∈ tree.toList, ∀ track, clip.bones[bone.name]? = some track → track.rotations.SampleDefined time

def BlendDefined (a b : Pose α) (tree : BoneTree α) (weight : α) : Prop :=
  ∀ name ∈ tree.names, ∀ p q, a[name]? = some p → b[name]? = some q → p.LerpDefined q weight

def DifferenceDefined (reference source : Pose α) (tree : BoneTree α) : Prop :=
  ∀ name ∈ tree.names,
    (source[name]?.getD Transform.identity).DifferenceDefined (reference[name]?.getD Transform.identity)

def LayerDefined (target additive : Pose α) (tree : BoneTree α) (weight : α) : Prop :=
  ∀ name ∈ tree.names,
    let q := additive[name]?.getD Transform.identity
    Transform.identity.LerpDefined q weight ∧
      (Transform.identity.lerp q weight).ApplyToDefined (target[name]?.getD Transform.identity)

end Pose

end Defined

/-- The rotations of the keys have length one. -/
def Clip.UnitKeys (clip : Clip ℝ) : Prop :=
  ∀ (name : String) (track : BoneTrack ℝ), clip.bones[name]? = some track →
    ∀ key ∈ track.rotations.keys, key.value.IsUnit

/-- The rotations of the bind transforms have length one. -/
def BoneTree.UnitBinds (tree : BoneTree ℝ) : Prop :=
  ∀ bone ∈ tree.toList, (Transform.ofMatrix bone.bind).rotation.IsUnit

/-- The rotations of the transforms have length one. -/
def Pose.IsUnit (pose : Pose ℝ) : Prop :=
  ∀ (name : String) (transform : Transform ℝ), pose[name]? = some transform → transform.rotation.IsUnit

namespace Track

variable {track : Track ℝ (Quat ℝ)} (h : ∀ key ∈ track.keys, key.value.IsUnit) (time : ℝ)

include h

theorem sampleDefined : track.SampleDefined time := by
  intro a b hsegment
  obtain ⟨ha, hb, -⟩ := of_segment?_eq_some hsegment
  exact (h a ha).interpolateDefined (h b hb) _

theorem isUnit_sample : (track.sample time).IsUnit := by
  have hdefined := sampleDefined h time
  unfold sample
  split
  · exact Quat.isUnit_identity
  · next first rest hkeys =>
    rw [SampleDefined, hkeys] at hdefined
    rw [hkeys] at h
    split
    · next a b hsegment => exact (hdefined a b hsegment).2.isUnit_normalize
    · exact h _ (List.getLast_mem _)

end Track

theorem BoneTrack.isUnit_sample {track : BoneTrack ℝ} (h : ∀ key ∈ track.rotations.keys, key.value.IsUnit) (time : ℝ)
    {bind : Transform ℝ} (hbind : bind.rotation.IsUnit) : (track.sample time bind).rotation.IsUnit := by
  change (sampleOr track.rotations time bind.rotation).IsUnit
  unfold sampleOr
  split
  · exact hbind
  · exact Track.isUnit_sample h time

namespace Pose

variable {a b : Pose ℝ}

theorem isUnit_empty : IsUnit ∅ := by
  intro name transform h
  simp at h

theorem IsUnit.assign (h : a.IsUnit) (name : String) {transform? : Option (Transform ℝ)}
    (hassigned : ∀ transform, transform? = some transform → transform.rotation.IsUnit) :
    (a.assign name transform?).IsUnit := by
  intro other transform hget
  rw [getElem?_assign] at hget
  split at hget
  · rcases Option.or_eq_some_iff.1 hget with hnew | ⟨-, hold⟩
    · exact hassigned transform hnew
    · exact h other transform hold
  · exact h other transform hget

/-- A bone that is missing counts as the identity. -/
theorem IsUnit.getD (h : a.IsUnit) (name : String) : (a[name]?.getD Transform.identity).rotation.IsUnit := by
  cases hget : a[name]? with
  | some transform => exact h name transform hget
  | none => exact Transform.isUnit_identity

theorem isUnit_collect (tree : BoneTree ℝ) {transform? : String → Option (Transform ℝ)}
    (h : ∀ name transform, transform? name = some transform → transform.rotation.IsUnit) :
    (collect tree transform?).IsUnit := by
  intro name transform hget
  rw [getElem?_collect] at hget
  split at hget
  · exact h name transform hget
  · cases hget

section Sample

variable {clip : Clip ℝ} {tree : BoneTree ℝ}

theorem isUnit_sample (hclip : clip.UnitKeys) (htree : tree.UnitBinds) (time : ℝ) : (sample clip tree time).IsUnit := by
  unfold sample sampleInto
  refine List.foldlRecOn (motive := IsUnit) tree.toList _ isUnit_empty ?_
  intro pose hpose bone hbone
  refine hpose.assign bone.name fun transform htransform => ?_
  obtain ⟨track, htrack, rfl⟩ := Option.map_eq_some_iff.1 htransform
  exact BoneTrack.isUnit_sample (hclip bone.name track htrack) time (htree bone hbone)

theorem sampleDefined (hclip : clip.UnitKeys) (tree : BoneTree ℝ) (time : ℝ) : SampleDefined clip tree time :=
  fun bone _ track htrack => Track.sampleDefined (hclip bone.name track htrack) time

end Sample

variable (ha : a.IsUnit) (hb : b.IsUnit) (tree : BoneTree ℝ) (weight : ℝ)

include ha hb

theorem IsUnit.blendDefined : a.BlendDefined b tree weight :=
  fun name _ p q hp hq => (ha name p hp).interpolateDefined (hb name q hq) weight

theorem IsUnit.blend : (a.blend b tree weight).IsUnit := by
  unfold Pose.blend
  split
  · exact ha
  · split
    · exact hb
    · refine isUnit_collect tree fun name transform hget => ?_
      unfold blendBone at hget
      split at hget
      · next p q hp hq =>
        obtain rfl := Option.some.inj hget
        exact Transform.isUnit_lerp (ha name p hp) (hb name q hq) weight
      · next p hp _ =>
        obtain rfl := Option.some.inj hget
        exact ha name p hp
      · next q _ hq =>
        obtain rfl := Option.some.inj hget
        exact hb name q hq
      · cases hget

theorem IsUnit.differenceDefined : a.DifferenceDefined b tree :=
  fun name _ => ((hb.getD name).mul (ha.getD name).conjugate).normalizeDefined

theorem IsUnit.difference : (a.difference b tree).IsUnit := by
  refine isUnit_collect tree fun name transform hget => ?_
  simp only [differenceBone, Option.ite_none_right_eq_some, Option.some.injEq] at hget
  obtain ⟨-, rfl⟩ := hget
  exact Transform.isUnit_difference (hb.getD name) (ha.getD name)

theorem IsUnit.layerDefined : a.LayerDefined b tree weight := by
  intro name _ q
  have hq : q.rotation.IsUnit := hb.getD name
  have hlerp := Transform.isUnit_lerp Transform.isUnit_identity hq weight
  exact ⟨Transform.isUnit_identity.interpolateDefined hq weight, (hlerp.mul (ha.getD name)).normalizeDefined⟩

theorem IsUnit.layer : (a.layer b tree weight).IsUnit := by
  unfold Pose.layer
  split
  · exact ha
  · refine isUnit_collect tree fun name transform hget => ?_
    simp only [layerBone, Option.ite_none_right_eq_some, Option.some.injEq] at hget
    obtain ⟨-, rfl⟩ := hget
    have hlerp := Transform.isUnit_lerp Transform.isUnit_identity (hb.getD name) weight
    exact Transform.isUnit_applyTo hlerp (ha.getD name)

end Pose
end Armature
