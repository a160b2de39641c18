import Armature.Proofs.BlendSymmetry
import Armature.Proofs.Layering

/-!
# Blends and layers that return a pose as it is

At an end of the range of weights a blend returns one of its poses as it is, and at weight zero a layer returns its
target, where at other weights the bones of the tree are walked. In exact arithmetic the walk leads to the same
transforms (`Pose.fast_paths_agree`), so that the two differ in their bones alone: the pose as it is may have bones that
are not in the tree, and the walk may have bones of the other pose. They have the same bones exactly if the pose that is
returned absorbs the other (`Pose.Absorbs`).
-/

namespace Armature

/-! ## Transforms -/

namespace Quat

variable {a b : Quat ℝ}

theorem identity_mul (a : Quat ℝ) : identity * a = a := by
  simp only [mul_def, identity, one_mul, zero_mul, add_zero, sub_zero]

/-- A quaternion of length one is not its own opposite. -/
theorem IsUnit.neg_ne (h : a.IsUnit) : -a ≠ a := by
  intro hneg
  have hdot : a.dot a = -a.dot a := by
    conv_lhs => rw [← hneg]
    rw [neg_dot, hneg]
  rw [h] at hdot
  norm_num at hdot

/-- The quaternion on the side of another is the one that is given exactly if the two are on one side. -/
theorem IsUnit.toward_eq_iff (hb : b.IsUnit) (a : Quat ℝ) : a.toward b = b ↔ 0 ≤ a.dot b := by
  unfold Quat.toward
  split
  · next hneg => exact iff_of_false hb.neg_ne (not_le.2 hneg)
  · next hnonneg => exact iff_of_true rfl (not_lt.1 hnonneg)

end Quat

namespace Transform

variable {a b : Transform ℝ}

theorem EqUpToSign.symm (h : a.EqUpToSign b) : b.EqUpToSign a where
  translation := h.translation.symm
  rotation := by
    rcases h.rotation with hsame | hopposite
    · exact .inl hsame.symm
    · rw [hopposite, Quat.neg_neg]
      exact .inr rfl
  scale := h.scale.symm

/-- The identity as an additive changes nothing. -/
theorem identity_applyTo (ha : a.rotation.IsUnit) : identity.applyTo a = a := by
  have hadd : a.translation + Vec3.zero = a.translation := by
    change (⟨a.translation.x + 0, a.translation.y + 0, a.translation.z + 0⟩ : Vec3 ℝ) = a.translation
    simp only [add_zero]
  have hmul : a.scale * Vec3.ones = a.scale := by
    change (⟨a.scale.x * 1, a.scale.y * 1, a.scale.z * 1⟩ : Vec3 ℝ) = a.scale
    simp only [mul_one]
  rw [applyTo, identity, hadd, hmul, Quat.identity_mul, ha.normalize_eq]

/-- An interpolation ends at the second transform itself exactly if the two rotations are on one side. -/
theorem lerp_one_eq_iff (a : Transform ℝ) (hb : b.rotation.IsUnit) :
    a.lerp b 1 = b ↔ 0 ≤ a.rotation.dot b.rotation := by
  rw [← hb.toward_eq_iff, ← rotation_lerp_one a hb]
  constructor
  · intro h
    exact congrArg rotation h
  · intro h
    have hend := eqUpToSign_lerp_one a hb
    have hparts : a.lerp b 1 = ⟨(a.lerp b 1).translation, (a.lerp b 1).rotation, (a.lerp b 1).scale⟩ := rfl
    rw [hparts, hend.translation, h, hend.scale]

end Transform

/-! ## Poses -/

namespace Pose

/-- What a blend would be if it went bone by bone at every weight. -/
def walkBlend {α : Type} [Scalar α] (a b : Pose α) (tree : BoneTree α) (weight : α) : Pose α :=
  collect tree (blendBone a b weight)

/-- What a layer would be if it went bone by bone at every weight. -/
def walkLayer {α : Type} [Scalar α] (target additive : Pose α) (tree : BoneTree α) (weight : α) : Pose α :=
  collect tree (layerBone target additive weight)

/-- The bones of a pose are in a tree, and include those of the tree that another pose has. -/
structure Absorbs (a b : Pose ℝ) (tree : BoneTree ℝ) : Prop where
  mem_names : ∀ name ∈ a, name ∈ tree.names
  mem_of_mem : ∀ name ∈ b, name ∈ tree.names → name ∈ a

variable {a b : Pose ℝ} {tree : BoneTree ℝ} {name : String}

theorem isSome_iff_of_rel {R : Transform ℝ → Transform ℝ → Prop} {p q : Option (Transform ℝ)} (h : Option.Rel R p q) :
    p.isSome ↔ q.isSome := by
  cases h <;> simp

theorem rel_eq_iff {p q : Option (Transform ℝ)} : Option.Rel Eq p q ↔ p = q := by
  constructor
  · rintro (⟨rfl⟩ | _) <;> rfl
  · rintro rfl
    cases p <;> constructor
    rfl

theorem mem_iff_of_rel {R : Transform ℝ → Transform ℝ → Prop} (h : Option.Rel R a[name]? b[name]?) :
    name ∈ a ↔ name ∈ b := by
  rw [Std.ExtTreeMap.mem_iff_isSome_getElem?, Std.ExtTreeMap.mem_iff_isSome_getElem?]
  exact isSome_iff_of_rel h

/-- A walk that has related transforms for the bones of one pose, and besides these has the bones of another pose alone,
    leads to a related pose exactly if the first pose absorbs the second. -/
theorem rel_collect_iff {transform? : String → Option (Transform ℝ)} {R : Transform ℝ → Transform ℝ → Prop}
    (hown : ∀ name ∈ a, Option.Rel R a[name]? (transform? name))
    (hother : ∀ name ∉ a, (transform? name).isSome ↔ name ∈ b) (tree : BoneTree ℝ) :
    (∀ name : String, Option.Rel R a[name]? (collect tree transform?)[name]?) ↔ a.Absorbs b tree := by
  constructor
  · intro h
    have hmem : ∀ name, name ∈ a ↔ name ∈ tree.names ∧ (transform? name).isSome :=
      fun name => (mem_iff_of_rel (h name)).trans mem_collect_iff
    constructor
    · intro name hname
      exact ((hmem name).1 hname).1
    · intro name hname htree
      by_contra hoff
      exact hoff ((hmem name).2 ⟨htree, (hother name hoff).2 hname⟩)
  · intro h name
    by_cases hname : name ∈ a
    · rw [getElem?_collect, if_pos (h.mem_names name hname)]
      exact hown name hname
    · have hwalked : name ∉ collect tree transform? := by
        rw [mem_collect_iff, hother name hname]
        exact fun hboth => hname (h.mem_of_mem name hboth.2 hboth.1)
      rw [Std.ExtTreeMap.getElem?_eq_none hname, Std.ExtTreeMap.getElem?_eq_none hwalked]
      exact .none

/-- Poses are equal if they have the same transform for each bone. -/
theorem eq_iff_rel : a = b ↔ ∀ name : String, Option.Rel Eq a[name]? b[name]? := by
  simp only [rel_eq_iff]
  exact ⟨fun h name => by rw [h], fun h => Std.ExtTreeMap.ext_getElem? fun name => h name⟩

/-! ### Blends -/

theorem getElem?_walkBlend_of_mem {weight : ℝ} (hname : name ∈ tree.names) :
    (a.walkBlend b tree weight)[name]? = blendBone a b weight name := by
  rw [walkBlend, getElem?_collect, if_pos hname]

/-- At weight zero a bone of the first pose is left as it is. -/
theorem IsUnit.blendBone_zero (ha : a.IsUnit) (b : Pose ℝ) (hname : name ∈ a) :
    blendBone a b 0 name = a[name]? := by
  have hp := Std.ExtTreeMap.getElem?_eq_some_getElem hname
  rw [blendBone, hp]
  cases b[name]? with
  | some q => exact congrArg some (Transform.lerp_zero (ha name a[name] hp) q)
  | none => rfl

/-- At weight one a bone of the second pose is left as it is, up to the sign of its rotation. -/
theorem IsUnit.rel_blendBone_one (hb : b.IsUnit) (a : Pose ℝ) (hname : name ∈ b) :
    Option.Rel Transform.EqUpToSign b[name]? (blendBone a b 1 name) := by
  have hq := Std.ExtTreeMap.getElem?_eq_some_getElem hname
  rw [blendBone, hq]
  cases a[name]? with
  | some p => exact .some (Transform.eqUpToSign_lerp_one p (hb name b[name] hq)).symm
  | none => exact .some (.refl _)

/-- The rotations of the bones that two poses share are on one side of each other. -/
def OneSided (a b : Pose ℝ) : Prop :=
  ∀ (name : String) (p q : Transform ℝ), a[name]? = some p → b[name]? = some q → 0 ≤ p.rotation.dot q.rotation

theorem IsUnit.blendBone_one (hb : b.IsUnit) (hsided : a.OneSided b) (hname : name ∈ b) :
    blendBone a b 1 name = b[name]? := by
  have hq := Std.ExtTreeMap.getElem?_eq_some_getElem hname
  rw [blendBone, hq]
  cases hp : a[name]? with
  | some p => exact congrArg some ((Transform.lerp_one_eq_iff p (hb name b[name] hq)).2 (hsided name p b[name] hp hq))
  | none => rfl

theorem IsUnit.blend_zero_eq_walk_iff (ha : a.IsUnit) (b : Pose ℝ) (tree : BoneTree ℝ) :
    a.blend b tree 0 = a.walkBlend b tree 0 ↔ a.Absorbs b tree := by
  rw [blend_zero, eq_iff_rel, walkBlend]
  apply rel_collect_iff
  · intro name hname
    exact rel_eq_iff.2 (ha.blendBone_zero b hname).symm
  · intro name hname
    rw [isSome_blendBone, or_iff_right hname]

theorem IsUnit.blend_one_eqUpToSign_walk_iff (hb : b.IsUnit) (a : Pose ℝ) (tree : BoneTree ℝ) :
    (a.blend b tree 1).EqUpToSign (a.walkBlend b tree 1) ↔ b.Absorbs a tree := by
  rw [blend_one, walkBlend]
  apply rel_collect_iff
  · intro name hname
    exact hb.rel_blendBone_one a hname
  · intro name hname
    rw [isSome_blendBone, or_iff_left hname]

theorem IsUnit.blend_one_eq_walk_iff (hb : b.IsUnit) (a : Pose ℝ) (tree : BoneTree ℝ) :
    a.blend b tree 1 = a.walkBlend b tree 1 ↔ b.Absorbs a tree ∧ a.OneSided b := by
  constructor
  · intro h
    have habsorbs : b.Absorbs a tree := by
      rw [← hb.blend_one_eqUpToSign_walk_iff, h]
      exact .refl _
    refine ⟨habsorbs, fun name p q hp hq => ?_⟩
    have hname : name ∈ tree.names :=
      habsorbs.mem_names name (Std.ExtTreeMap.mem_iff_isSome_getElem?.2 (Option.isSome_of_eq_some hq))
    have hwalked : (a.walkBlend b tree 1)[name]? = some (p.lerp q 1) := by
      rw [getElem?_walkBlend_of_mem hname, blendBone, hp, hq]
    rw [← h, blend_one, hq] at hwalked
    exact (Transform.lerp_one_eq_iff p (hb name q hq)).1 (Option.some.inj hwalked).symm
  · rintro ⟨habsorbs, hsided⟩
    rw [blend_one, eq_iff_rel, walkBlend]
    refine (rel_collect_iff ?_ ?_ tree).2 habsorbs
    · intro name hname
      exact rel_eq_iff.2 (hb.blendBone_one hsided hname).symm
    · intro name hname
      rw [isSome_blendBone, or_iff_left hname]

/-! ### Layers -/

/-- At weight zero a bone of the target is left as it is. -/
theorem IsUnit.layerBone_zero (ha : a.IsUnit) (hname : name ∈ a) (b : Pose ℝ) : layerBone a b 0 name = a[name]? := by
  have hp := Std.ExtTreeMap.getElem?_eq_some_getElem hname
  have hidentity := Transform.lerp_zero Transform.isUnit_identity (b[name]?.getD Transform.identity)
  simp only [layerBone, hp, Option.isSome_some, Bool.true_or, if_true, Option.getD_some, hidentity,
    Transform.identity_applyTo (ha name a[name] hp)]

theorem layer_zero (a b : Pose ℝ) (tree : BoneTree ℝ) : a.layer b tree 0 = a := if_pos (weight_beq_iff.2 rfl)

theorem IsUnit.layer_zero_eq_walk_iff (ha : a.IsUnit) (b : Pose ℝ) (tree : BoneTree ℝ) :
    a.layer b tree 0 = a.walkLayer b tree 0 ↔ a.Absorbs b tree := by
  rw [layer_zero, eq_iff_rel, walkLayer]
  apply rel_collect_iff
  · intro name hname
    exact rel_eq_iff.2 (ha.layerBone_zero hname b).symm
  · intro name hname
    rw [layerBone_eq_combineBone, isSome_combineBone, or_iff_right hname]

/-- A blend at weight zero or one has the transforms of the walk for the bones of the tree that both poses have, and is
    the pose that the walk leads to if the poses have the same bones, all of them in the tree. At weight one the walk
    may have the other of the two quaternions of a rotation, and has it where the rotations of the poses are not on one
    side. A layer at weight zero has the transforms of the walk for the bones of the tree that the target has, and is
    the pose that the walk leads to if the bones of the additive are in the target, and these in the tree. In general
    the pose that is returned is that of the walk exactly if it absorbs the other one. -/
theorem fast_paths_agree (ha : a.IsUnit) (hb : b.IsUnit) (tree : BoneTree ℝ) :
    (∀ name ∈ tree.names, name ∈ a → name ∈ b →
      (a.blend b tree 0).AgreeAt (a.walkBlend b tree 0) name ∧
      (a.blend b tree 1).AgreeAt (a.walkBlend b tree 1) name) ∧
    ((∀ name, name ∈ a ↔ name ∈ b) → (∀ name ∈ a, name ∈ tree.names) →
      a.blend b tree 0 = a.walkBlend b tree 0 ∧ (a.blend b tree 1).EqUpToSign (a.walkBlend b tree 1)) ∧
    (∀ name ∈ tree.names, name ∈ a → (a.layer b tree 0)[name]? = (a.walkLayer b tree 0)[name]?) ∧
    ((∀ name ∈ a, name ∈ tree.names) → (∀ name ∈ b, name ∈ a) → a.layer b tree 0 = a.walkLayer b tree 0) ∧
    (a.blend b tree 0 = a.walkBlend b tree 0 ↔ a.Absorbs b tree) ∧
    ((a.blend b tree 1).EqUpToSign (a.walkBlend b tree 1) ↔ b.Absorbs a tree) ∧
    (a.blend b tree 1 = a.walkBlend b tree 1 ↔ b.Absorbs a tree ∧ a.OneSided b) ∧
    (a.layer b tree 0 = a.walkLayer b tree 0 ↔ a.Absorbs b tree) := by
  have hzero := ha.blend_zero_eq_walk_iff b tree
  have hone := hb.blend_one_eqUpToSign_walk_iff a tree
  have hlayer := ha.layer_zero_eq_walk_iff b tree
  refine ⟨?_, ?_, ?_, ?_, hzero, hone, hb.blend_one_eq_walk_iff a tree, hlayer⟩
  · intro name hname hname_a hname_b
    constructor
    · apply AgreeAt.of_eq
      rw [blend_zero, getElem?_walkBlend_of_mem hname, ha.blendBone_zero b hname_a]
    · rw [AgreeAt, blend_one, getElem?_walkBlend_of_mem hname]
      exact hb.rel_blendBone_one a hname_b
  · intro hsame hnames
    constructor
    · exact hzero.2 ⟨hnames, fun name hname _ => (hsame name).2 hname⟩
    · exact hone.2 ⟨fun name hname => hnames name ((hsame name).2 hname), fun name hname _ => (hsame name).1 hname⟩
  · intro name hname hname_a
    rw [layer_zero, walkLayer, getElem?_collect, if_pos hname, ha.layerBone_zero hname_a]
  · intro hnames hwithin
    exact hlayer.2 ⟨hnames, fun name hname _ => hwithin name hname⟩

/-! ### Standing still -/

/-- Moved, and turned as the statue is, by the other one of the two quaternions. -/
noncomputable def opposed : Transform ℝ := ⟨⟨0, 0, 1⟩, ⟨0, 0, -1, 0⟩, ⟨1, 1, 1⟩⟩

theorem isUnit_ofPair (first second : String) {transform : Transform ℝ} (h : transform.rotation.IsUnit) :
    (ofPair first second transform).IsUnit := by
  intro name found hfound
  rw [eq_of_getElem?_ofPair hfound]
  exact h

theorem mem_ofPair {first second : String} {transform : Transform ℝ} :
    name ∈ ofPair first second transform ↔ second = name ∨ first = name := by
  simp [ofPair]

/-- Two poses of the same bones, with opposite quaternions, and a third one that has a leg besides. -/
theorem fast_paths_agree_statue :
    let upright := ofPair "hip" "arm" facing
    let shifted := ofPair "hip" "arm" opposed
    let fallen := ofPair "hip" "leg" lying
    upright.IsUnit ∧ shifted.IsUnit ∧ fallen.IsUnit ∧
    upright.blend shifted statue 0 = upright.walkBlend shifted statue 0 ∧
    (upright.blend shifted statue 1).EqUpToSign (upright.walkBlend shifted statue 1) ∧
    upright.blend shifted statue 1 ≠ upright.walkBlend shifted statue 1 ∧
    upright.layer shifted statue 0 = upright.walkLayer shifted statue 0 ∧
    (upright.blend fallen statue 1).AgreeAt (upright.walkBlend fallen statue 1) "hip" ∧
    upright.blend fallen statue 0 ≠ upright.walkBlend fallen statue 0 := by
  intro upright shifted fallen
  have hupright : upright.IsUnit := isUnit_ofPair _ _ (by simp [facing, Quat.IsUnit, Quat.dot])
  have hshifted : shifted.IsUnit := isUnit_ofPair _ _ (by simp [opposed, Quat.IsUnit, Quat.dot])
  have hfallen : fallen.IsUnit := isUnit_ofPair _ _ (by simp [lying, Quat.IsUnit, Quat.dot])
  have hsame : ∀ name, name ∈ upright ↔ name ∈ shifted := fun name => mem_ofPair.trans mem_ofPair.symm
  have hnames : ∀ name ∈ upright, name ∈ statue.names := by
    intro name hname
    rcases mem_ofPair.1 hname with rfl | rfl
    · decide
    · decide
  obtain ⟨-, hblend, -, hlayer, -, -, hexact, -⟩ := fast_paths_agree hupright hshifted statue
  obtain ⟨hshared, -, -, -, hother, -⟩ := fast_paths_agree hupright hfallen statue
  obtain ⟨hzero, hone⟩ := hblend hsame hnames
  refine ⟨hupright, hshifted, hfallen, hzero, hone, ?_, hlayer hnames fun name => (hsame name).2, ?_, ?_⟩
  · intro h
    have hdot := (hexact.1 h).2 "hip" facing opposed rfl rfl
    simp only [facing, opposed, Quat.dot] at hdot
    norm_num at hdot
  · exact (hshared "hip" (by decide) (by decide) (by decide)).2
  · intro h
    have hleg := (hother.1 h).mem_of_mem "leg" (by decide) (by decide)
    exact absurd hleg (by decide)

end Pose
end Armature
