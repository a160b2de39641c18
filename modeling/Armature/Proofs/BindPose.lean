import Armature.Proofs.ClipSampling
import Armature.Proofs.Decomposition

/-!
# Clips without keys

A clip that animates a bone by tracks without keys gives it the transform that its bind matrix is decomposed into. In
exact arithmetic the matrix of that transform is the bind matrix again, so the palette is that of the bind pose
(`Skeleton.finalize_unkeyed`). Poses have one transform for all bones of a name: where two bones of an animated name
differ in their bind matrices, one of them is moved (`Skeleton.finalize_unkeyed_ne_hobble`).
-/

namespace Armature

/-- The clip animates bones by tracks without keys alone. -/
def Clip.Unkeyed {α : Type} (clip : Clip α) : Prop :=
  ∀ (name : String) (track : BoneTrack α), clip.bones[name]? = some track →
    track.translations.isEmpty ∧ track.rotations.isEmpty ∧ track.scales.isEmpty

/-- The bind matrices are matrices of transforms that they can be decomposed into. -/
def BoneTree.RegularBinds (tree : BoneTree ℝ) : Prop :=
  ∀ bone ∈ tree.toList, ∃ a : Transform ℝ, a.IsRegular ∧ bone.bind = a.toMatrix

/-- Bones of one name have one bind matrix, if the clip animates them. -/
def BoneTree.Agrees {α : Type} (tree : BoneTree α) (clip : Clip α) : Prop :=
  ∀ bone ∈ tree.toList, ∀ other ∈ tree.toList, other.name = bone.name → bone.name ∈ clip.bones → other.bind = bone.bind

theorem BoneTree.agrees_of_nodup {α : Type} {tree : BoneTree α} (h : tree.names.Nodup) (clip : Clip α) :
    tree.Agrees clip := by
  intro bone hbone other hother hname _
  rw [List.inj_on_of_nodup_map h hother hbone hname]

/-- Placing bones depends on the local matrices of the bones of the tree alone. -/
theorem BoneTree.place_congr {α : Type} [Scalar α] {tree : BoneTree α} {f g : Bone α → Mat4 α}
    (h : ∀ bone ∈ tree.toList, f bone = g bone) (rootParent : Mat4 α) :
    tree.place f rootParent = tree.place g rootParent := by
  rw [place_eq, place_eq]
  apply List.map_congr_left
  intro lineage hlineage
  have hmatrix : lineage.matrix f rootParent = lineage.matrix g rootParent := by
    apply List.foldl_ext
    intro placed bone hbone
    have hmem := Bones.mem_toList_of_mem_path hlineage bone hbone
    rw [h bone (by simpa [Bones.toList, toList] using hmem)]
  rw [hmatrix]

namespace Skeleton

variable {skeleton : Skeleton ℝ} {clip : Clip ℝ}

/-- The transform that a clip without keys gives a bone has the bind matrix of the bone. -/
theorem localMatrix_unkeyed (hbinds : skeleton.tree.RegularBinds) (hclip : clip.Unkeyed)
    (hnames : skeleton.tree.Agrees clip) (time : ℝ) {bone : Bone ℝ} (hbone : bone ∈ skeleton.tree.toList) :
    localMatrix (Pose.sample clip skeleton.tree time) bone = bone.bind := by
  have hentry := Pose.getElem?_sampleInto clip skeleton.tree time ∅ bone.name
  rw [localMatrix, Pose.sample, hentry, Pose.written]
  cases htrack : clip.bones[bone.name]? with
  | none => simp
  | some track =>
    obtain ⟨last, hlast⟩ := BoneTree.exists_lastNamed? (List.mem_map_of_mem (f := (·.name)) hbone)
    obtain ⟨hmem, hname⟩ := List.mem_filter.1 (List.mem_of_getLast? hlast)
    have hbind : last.bind = bone.bind := by
      refine hnames bone hbone last hmem (of_decide_eq_true hname) ?_
      rw [Std.ExtTreeMap.mem_iff_isSome_getElem?, htrack]
      rfl
    obtain ⟨htranslations, hrotations, hscales⟩ := hclip _ _ htrack
    have hsample : track.sample time (Transform.ofMatrix last.bind) = Transform.ofMatrix last.bind := by
      simp only [BoneTrack.sample, BoneTrack.sampleOr, htranslations, hrotations, hscales, if_true]
    obtain ⟨a, ha, hmatrix⟩ := hbinds bone hbone
    simp only [Option.bind_some, hlast, Option.map_some, Option.some_or, hsample]
    rw [hbind, hmatrix, ha.toMatrix_ofMatrix]

/-- The matrix of a transform is decomposed into a transform with the same matrix, if the rotation has length one and no
    component of the scale is zero. So a clip without keys leaves every bone of a skeleton with such bind matrices where
    the bind pose has it, as long as bones of one name that it animates have one bind matrix. -/
theorem finalize_unkeyed :
    (∀ a : Transform ℝ, a.IsRegular → (Transform.ofMatrix a.toMatrix).toMatrix = a.toMatrix) ∧
    ∀ (skeleton : Skeleton ℝ) (clip : Clip ℝ), skeleton.tree.RegularBinds → clip.Unkeyed → skeleton.tree.Agrees clip →
      ∀ (time : ℝ) (rootParent : Mat4 ℝ) (buffer : Palette ℝ),
        skeleton.finalizeInto buffer (Pose.sample clip skeleton.tree time) rootParent =
          skeleton.finalizeBindPose rootParent buffer := by
  refine ⟨fun a ha => ha.toMatrix_ofMatrix, ?_⟩
  intro skeleton clip hbinds hclip hnames time rootParent buffer
  have hplace : skeleton.tree.place (localMatrix (Pose.sample clip skeleton.tree time)) rootParent =
      skeleton.tree.place (localMatrix ∅) rootParent := by
    refine BoneTree.place_congr (fun bone hbone => ?_) rootParent
    rw [localMatrix_unkeyed hbinds hclip hnames time hbone, localMatrix]
    simp
  rw [finalizeBindPose, finalizeInto, finalizeInto, hplace]

/-! ### Two legs of one name -/

/-- A step to the side, by one or by minus one. -/
noncomputable def sideways (x : ℝ) : Transform ℝ := .ofTranslation ⟨x, 0, 0⟩

theorem isRegular_sideways (x : ℝ) : (sideways x).IsRegular where
  rotation := Quat.isUnit_identity
  x := one_ne_zero
  y := one_ne_zero
  z := one_ne_zero

theorem toMatrix_sideways (x : ℝ) : (sideways x).toMatrix = ⟨⟨1, 0, 0, 0⟩, ⟨0, 1, 0, 0⟩, ⟨0, 0, 1, 0⟩, ⟨x, 0, 0, 1⟩⟩ := by
  simp [sideways, Transform.ofTranslation, Transform.identity, Transform.toMatrix, Mat4.ofScaleRotationTranslation,
    Quat.identity, Vec3.ones, Vec4.scale]

theorem identity_eq : (Mat4.identity : Mat4 ℝ) = (sideways 0).toMatrix := by
  rw [toMatrix_sideways]
  rfl

theorem sideways_mul (x y : ℝ) : (sideways x).toMatrix * (sideways y).toMatrix = (sideways (x + y)).toMatrix := by
  have hmul (a b : Mat4 ℝ) : a * b = ⟨a.apply b.xAxis, a.apply b.yAxis, a.apply b.zAxis, a.apply b.wAxis⟩ := rfl
  have hadd (a b : Vec4 ℝ) : a + b = ⟨a.x + b.x, a.y + b.y, a.z + b.z, a.w + b.w⟩ := rfl
  simp [toMatrix_sideways, hmul, Mat4.apply, Vec4.scale, hadd, add_comm]

/-- A hip with a leg to each side, the first of them with a foot. -/
noncomputable def legs (first second : String) : BoneTree ℝ :=
  ⟨⟨"hip", (sideways 0).toMatrix⟩,
    .cons ⟨first, (sideways 1).toMatrix⟩ (.cons ⟨"foot", (sideways 0).toMatrix⟩ .nil .nil) <|
    .cons ⟨second, (sideways (-1)).toMatrix⟩ .nil .nil⟩

/-- Vertices are attached to the foot. -/
noncomputable def footTable : List (String × BoneInfo ℝ) := [("foot", ⟨0, .identity⟩)]

noncomputable def walker (first second : String) : Skeleton ℝ where
  tree := legs first second
  table := Std.ExtTreeMap.ofList footTable
  inverseTransform := .identity
  mem_names_of_mem_table name h := by
    obtain ⟨entry, hentry, rfl⟩ := mem_ofList_iff.1 h
    obtain rfl := List.mem_singleton.1 hentry
    simp [legs, BoneTree.names, BoneTree.toList, Bones.toList]

theorem regularBinds_walker (first second : String) : (walker first second).tree.RegularBinds := by
  intro bone hbone
  simp only [walker, legs, BoneTree.toList, Bones.toList, List.cons_append, List.nil_append, List.mem_cons,
    List.not_mem_nil, or_false] at hbone
  rcases hbone with rfl | rfl | rfl | rfl <;> exact ⟨_, isRegular_sideways _, rfl⟩

/-- A clip that animates a leg and the foot, without keys. -/
noncomputable def hobble : Clip ℝ :=
  ⟨"hobble", 0, 1, (Std.ExtTreeMap.empty.insert "leg" ⟨.empty, .empty, .empty⟩).insert "foot" ⟨.empty, .empty, .empty⟩⟩

theorem unkeyed_hobble : hobble.Unkeyed := by
  intro name track htrack
  have hempty : track = ⟨.empty, .empty, .empty⟩ := by
    simp only [hobble, Std.ExtTreeMap.getElem?_insert] at htrack
    split at htrack
    · exact (Option.some.inj htrack).symm
    · split at htrack
      · exact (Option.some.inj htrack).symm
      · simp at htrack
  subst hempty
  exact ⟨rfl, rfl, rfl⟩

theorem finalize_unkeyed_hobble :
    (walker "leg" "other leg").finalizeInto #[] (Pose.sample hobble (walker "leg" "other leg").tree 0) .identity =
      (walker "leg" "other leg").finalizeBindPose .identity := by
  have hnodup : (walker "leg" "other leg").tree.names.Nodup := by
    simp [walker, legs, BoneTree.names, BoneTree.toList, Bones.toList]
  exact finalize_unkeyed.2 _ hobble (regularBinds_walker _ _) unkeyed_hobble (BoneTree.agrees_of_nodup hnodup hobble) 0
    .identity #[]

/-- The palette has the foot alone, which hangs below the first leg. -/
theorem finalize_walker (pose : Pose ℝ) :
    (walker "leg" "leg").finalizeInto #[] pose .identity =
      #[.identity * (.identity * localMatrix pose ⟨"hip", (sideways 0).toMatrix⟩ *
        localMatrix pose ⟨"leg", (sideways 1).toMatrix⟩ * localMatrix pose ⟨"foot", (sideways 0).toMatrix⟩) *
        .identity] := by
  have hhip : (walker "leg" "leg").table["hip"]? = none := rfl
  have hleg : (walker "leg" "leg").table["leg"]? = none := rfl
  have hfoot : (walker "leg" "leg").table["foot"]? = some ⟨0, .identity⟩ := rfl
  have htree : (walker "leg" "leg").tree = legs "leg" "leg" := rfl
  simp only [finalizeInto, htree, legs, BoneTree.place, Bones.place, List.foldl_cons, List.foldl_nil, List.nil_append,
    List.cons_append, writeBone, hhip, hleg, hfoot, Palette.clear_eq_empty]
  rfl

/-- The clip moves the first leg to the side of the second one. -/
theorem localMatrix_hobble :
    let pose := Pose.sample hobble (walker "leg" "leg").tree 0
    localMatrix pose ⟨"hip", (sideways 0).toMatrix⟩ = (sideways 0).toMatrix ∧
      localMatrix pose ⟨"leg", (sideways 1).toMatrix⟩ = (sideways (-1)).toMatrix ∧
      localMatrix pose ⟨"foot", (sideways 0).toMatrix⟩ = (sideways 0).toMatrix := by
  have hentry := Pose.getElem?_sampleInto hobble (walker "leg" "leg").tree 0 ∅
  have hhip : Pose.written hobble (walker "leg" "leg").tree 0 "hip" = none := rfl
  have hleg : Pose.written hobble (walker "leg" "leg").tree 0 "leg" =
    some (Transform.ofMatrix (sideways (-1)).toMatrix) := rfl
  have hfoot : Pose.written hobble (walker "leg" "leg").tree 0 "foot" =
    some (Transform.ofMatrix (sideways 0).toMatrix) := rfl
  simp only [Pose.sample, localMatrix, hentry, hhip, hleg, hfoot, Option.some_or,
    (isRegular_sideways _).toMatrix_ofMatrix]
  simp

/-- Bones of one name with different bind matrices: the foot is on the other side. -/
theorem finalize_unkeyed_ne_hobble :
    (walker "leg" "leg").tree.RegularBinds ∧ hobble.Unkeyed ∧
    (walker "leg" "leg").finalizeInto #[] (Pose.sample hobble (walker "leg" "leg").tree 0) .identity ≠
      (walker "leg" "leg").finalizeBindPose .identity := by
  refine ⟨regularBinds_walker _ _, unkeyed_hobble, fun heq => ?_⟩
  obtain ⟨hhip, hleg, hfoot⟩ := localMatrix_hobble
  have hbind (bone : Bone ℝ) : localMatrix ∅ bone = bone.bind := by
    rw [localMatrix]
    simp
  rw [finalizeBindPose, finalize_walker, finalize_walker, hhip, hleg, hfoot, hbind, hbind, hbind] at heq
  simp only [identity_eq, sideways_mul] at heq
  have hside := congrArg (·.wAxis.x) (Array.singleton_inj.1 heq)
  simp only [toMatrix_sideways] at hside
  norm_num at hside

end Skeleton
end Armature
