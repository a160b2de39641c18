import Armature.Number.Binary32
import Armature.Pose

/-!
# Operations on poses go bone by bone

A blend, a difference and a layer have the bones of the tree that one of the two poses has, each with a transform that is
made of those the poses have for it. So they depend on the tree through its names alone, and on what the poses have for
these names (`Bonewise`); a blend or a layer at an end of the range of weights, which returns one of the poses as it is,
is the exception (`bonewise_operations`).
-/

namespace Armature.Pose

variable {α : Type}

/-- An operation on two poses along a tree makes a pose of the bones of the tree that one of the two has, and looks at
    nothing else. -/
structure Bonewise (operation : Pose α → Pose α → BoneTree α → Pose α) : Prop where
  mem_iff : ∀ a b tree name, name ∈ operation a b tree ↔ name ∈ tree.names ∧ (name ∈ a ∨ name ∈ b)
  congr : ∀ a b a' b' tree tree', (∀ name, name ∈ tree.names ↔ name ∈ tree'.names) →
    (∀ name ∈ tree.names, a[name]? = a'[name]? ∧ b[name]? = b'[name]?) →
    operation a b tree = operation a' b' tree'

theorem isSome_or_isSome_iff {a b : Pose α} {name : String} :
    a[name]?.isSome || b[name]?.isSome ↔ name ∈ a ∨ name ∈ b := by
  rw [Bool.or_eq_true, Std.ExtTreeMap.mem_iff_isSome_getElem?, Std.ExtTreeMap.mem_iff_isSome_getElem?]

theorem mem_collect_iff {tree : BoneTree α} {transform? : String → Option (Transform α)} {name : String} :
    name ∈ collect tree transform? ↔ name ∈ tree.names ∧ (transform? name).isSome := by
  rw [Std.ExtTreeMap.mem_iff_isSome_getElem?, getElem?_collect]
  by_cases hname : name ∈ tree.names <;> simp [hname]

/-- Poses are collected bone by bone if the transform of a bone depends on those that the poses have for it. -/
theorem bonewise_collect {transform? : Pose α → Pose α → String → Option (Transform α)}
    (hsome : ∀ a b name, (transform? a b name).isSome ↔ name ∈ a ∨ name ∈ b)
    (hlocal : ∀ a b a' b' name, a[name]? = a'[name]? → b[name]? = b'[name]? →
      transform? a b name = transform? a' b' name) :
    Bonewise fun a b tree => collect tree (transform? a b) where
  mem_iff := by
    intro a b tree name
    rw [mem_collect_iff, hsome a b name]
  congr := by
    intro a b a' b' tree tree' hnames hposes
    apply Std.ExtTreeMap.ext_getElem?
    intro name
    rw [getElem?_collect, getElem?_collect]
    by_cases hname : name ∈ tree.names
    · obtain ⟨ha, hb⟩ := hposes name hname
      rw [if_pos hname, if_pos ((hnames name).1 hname), hlocal a b a' b' name ha hb]
    · rw [if_neg hname, if_neg (mt (hnames name).2 hname)]

variable [Scalar α]

/-! ## Blends -/

theorem blend_eq_collect {weight : α} (hzero : ¬ weight == 0) (hone : ¬ weight == 1) (a b : Pose α)
    (tree : BoneTree α) : a.blend b tree weight = collect tree (blendBone a b weight) := by
  rw [blend, if_neg hzero, if_neg hone]

theorem isSome_blendBone (a b : Pose α) (weight : α) (name : String) :
    (blendBone a b weight name).isSome ↔ name ∈ a ∨ name ∈ b := by
  rw [← isSome_or_isSome_iff, blendBone]
  cases a[name]? <;> cases b[name]? <;> simp

theorem bonewise_blend {weight : α} (hzero : ¬ weight == 0) (hone : ¬ weight == 1) :
    Bonewise fun a b tree => a.blend b tree weight := by
  simp only [blend_eq_collect hzero hone]
  apply bonewise_collect
  · intro a b name
    exact isSome_blendBone a b weight name
  · intro a b a' b' name ha hb
    rw [blendBone, blendBone, ha, hb]

/-- A bone that both poses have is interpolated. -/
theorem getElem?_blend_of_both {weight : α} (hzero : ¬ weight == 0) (hone : ¬ weight == 1) {a b : Pose α}
    {tree : BoneTree α} {name : String} (hname : name ∈ tree.names) {p q : Transform α} (hp : a[name]? = some p)
    (hq : b[name]? = some q) : (a.blend b tree weight)[name]? = some (p.lerp q weight) := by
  rw [blend_eq_collect hzero hone, getElem?_collect, if_pos hname, blendBone, hp, hq]

/-- A bone that one pose alone has is left as it is. -/
theorem getElem?_blend_of_one {weight : α} (hzero : ¬ weight == 0) (hone : ¬ weight == 1) {a b : Pose α}
    {tree : BoneTree α} {name : String} (hname : name ∈ tree.names) :
    (name ∉ b → (a.blend b tree weight)[name]? = a[name]?) ∧
      (name ∉ a → (a.blend b tree weight)[name]? = b[name]?) := by
  rw [blend_eq_collect hzero hone, getElem?_collect, if_pos hname, blendBone]
  constructor
  · intro hb
    rw [Std.ExtTreeMap.getElem?_eq_none hb]
    cases a[name]? <;> rfl
  · intro ha
    rw [Std.ExtTreeMap.getElem?_eq_none ha]
    cases b[name]? <;> rfl

/-! ## Differences and layers -/

/-- A transform that is made of those of two poses, if one of them has the bone; the other counts as the identity. -/
def combineBone (combine : Transform α → Transform α → Transform α) (a b : Pose α) (name : String) :
    Option (Transform α) :=
  if a[name]?.isSome || b[name]?.isSome then
    some (combine (a[name]?.getD Transform.identity) (b[name]?.getD Transform.identity))
  else none

section Combine

variable {combine : Transform α → Transform α → Transform α}

theorem isSome_combineBone (a b : Pose α) (name : String) :
    (combineBone combine a b name).isSome ↔ name ∈ a ∨ name ∈ b := by
  rw [combineBone, ← isSome_or_isSome_iff]
  exact Option.isSome_ite

theorem bonewise_combine : Bonewise fun a b tree => collect tree (combineBone combine a b) := by
  apply bonewise_collect
  · intro a b name
    exact isSome_combineBone a b name
  · intro a b a' b' name ha hb
    rw [combineBone, combineBone, ha, hb]

theorem getElem?_combine {a b : Pose α} {tree : BoneTree α} {name : String}
    (h : name ∈ collect tree (combineBone combine a b)) :
    (collect tree (combineBone combine a b))[name]? =
      some (combine (a[name]?.getD .identity) (b[name]?.getD .identity)) := by
  obtain ⟨hname, heither⟩ := (bonewise_combine.mem_iff a b tree name).1 h
  rw [getElem?_collect, if_pos hname]
  exact if_pos (isSome_or_isSome_iff.2 heither)

end Combine

theorem difference_eq_collect (reference source : Pose α) (tree : BoneTree α) :
    difference reference source tree = collect tree (combineBone (fun p q => q.difference p) reference source) := rfl

theorem layerBone_eq_combineBone (target additive : Pose α) (weight : α) :
    layerBone target additive weight =
      combineBone (fun p q => (Transform.identity.lerp q weight).applyTo p) target additive := rfl

theorem layer_eq_collect {weight : α} (hzero : ¬ weight == 0) (target additive : Pose α) (tree : BoneTree α) :
    target.layer additive tree weight =
      collect tree (combineBone (fun p q => (Transform.identity.lerp q weight).applyTo p) target additive) :=
  if_neg hzero

theorem bonewise_difference : Bonewise (difference (α := α)) := by
  change Bonewise fun a b tree => collect tree (combineBone (fun p q => q.difference p) a b)
  exact bonewise_combine

theorem bonewise_layer {weight : α} (hzero : ¬ weight == 0) :
    Bonewise fun target additive tree => target.layer additive tree weight := by
  simp only [layer_eq_collect hzero]
  exact bonewise_combine

theorem getElem?_difference {reference source : Pose α} {tree : BoneTree α} {name : String}
    (h : name ∈ difference reference source tree) :
    (difference reference source tree)[name]? =
      some ((source[name]?.getD .identity).difference (reference[name]?.getD .identity)) := by
  rw [difference_eq_collect] at h ⊢
  exact getElem?_combine h

theorem getElem?_layer {weight : α} (hzero : ¬ weight == 0) {target additive : Pose α} {tree : BoneTree α}
    {name : String} (h : name ∈ target.layer additive tree weight) :
    (target.layer additive tree weight)[name]? =
      some ((Transform.identity.lerp (additive[name]?.getD .identity) weight).applyTo
        (target[name]?.getD .identity)) := by
  rw [layer_eq_collect hzero] at h ⊢
  exact getElem?_combine h

/-! ## Single precision -/

/-- A weight of one is not zero. -/
theorem not_beq_zero_of_beq_one {weight : Binary32} (h : weight == 1) : ¬ weight == 0 := by
  intro hzero
  obtain ⟨-, hone⟩ := Bool.and_eq_true_iff.1 h
  obtain ⟨-, hzero⟩ := Bool.and_eq_true_iff.1 hzero
  have hkeys : Binary32.key 1 = Binary32.key 0 := (beq_iff_eq.1 hone).symm.trans (beq_iff_eq.1 hzero)
  exact absurd hkeys (by decide)

/-- A blend whose weight is neither zero nor one interpolates a bone that both poses have, and leaves a bone as it is that
    one of them has. A difference and a layer whose weight is not zero take the identity for what is missing. All of them
    go bone by bone. At weight zero a blend is its first pose and a layer its target, and at weight one a blend is its
    second pose, whichever bones the tree has. A weight that is not a number is neither zero nor one. -/
theorem bonewise_operations :
    (∀ weight : Binary32, ¬ weight == 0 → ¬ weight == 1 →
      Bonewise (fun a b tree => a.blend b tree weight) ∧
      ∀ (a b : Pose Binary32) (tree : BoneTree Binary32), ∀ name ∈ tree.names,
        (∀ p q, a[name]? = some p → b[name]? = some q → (a.blend b tree weight)[name]? = some (p.lerp q weight)) ∧
        (name ∉ b → (a.blend b tree weight)[name]? = a[name]?) ∧
        (name ∉ a → (a.blend b tree weight)[name]? = b[name]?)) ∧
    (Bonewise (difference (α := Binary32)) ∧
      ∀ (a b : Pose Binary32) (tree : BoneTree Binary32), ∀ name ∈ a.difference b tree,
        (a.difference b tree)[name]? = some ((b[name]?.getD .identity).difference (a[name]?.getD .identity))) ∧
    (∀ weight : Binary32, ¬ weight == 0 →
      Bonewise (fun a b tree => a.layer b tree weight) ∧
      ∀ (a b : Pose Binary32) (tree : BoneTree Binary32), ∀ name ∈ a.layer b tree weight,
        (a.layer b tree weight)[name]? =
          some ((Transform.identity.lerp (b[name]?.getD .identity) weight).applyTo (a[name]?.getD .identity))) ∧
    ∀ (weight : Binary32) (a b : Pose Binary32) (tree : BoneTree Binary32),
      (weight == 0 → a.blend b tree weight = a ∧ a.layer b tree weight = a) ∧
      (weight == 1 → a.blend b tree weight = b) := by
  refine ⟨?_, ⟨bonewise_difference, ?_⟩, ?_, ?_⟩
  · intro weight hzero hone
    refine ⟨bonewise_blend hzero hone, ?_⟩
    intro a b tree name hname
    exact ⟨fun p q hp hq => getElem?_blend_of_both hzero hone hname hp hq, getElem?_blend_of_one hzero hone hname⟩
  · intro a b tree name hname
    exact getElem?_difference hname
  · intro weight hzero
    refine ⟨bonewise_layer hzero, ?_⟩
    intro a b tree name hname
    exact getElem?_layer hzero hname
  · intro weight a b tree
    constructor
    · intro hzero
      exact ⟨if_pos hzero, if_pos hzero⟩
    · intro hone
      exact (if_neg (not_beq_zero_of_beq_one hone)).trans (if_pos hone)

/-! ### Two legs of one name -/

def twinTree : BoneTree Binary32 :=
  ⟨⟨"hip", .identity⟩, .cons ⟨"leg", .identity⟩ .nil (.cons ⟨"leg", .identity⟩ .nil .nil)⟩

def raised : Transform Binary32 := .ofTranslation ⟨0, 1, 0⟩

def turned : Transform Binary32 := .ofRotation ⟨1, 0, 0, 0⟩

/-- A hat is no bone of the tree. -/
def standing : Pose Binary32 := (∅ : Pose Binary32).insertMany [("leg", raised), ("hat", raised)]

def striding : Pose Binary32 := (∅ : Pose Binary32).insertMany [("leg", turned), ("hip", turned)]

/-- A blend whose weight is not a number loses the hat, and one at weight zero keeps it. -/
theorem bonewise_operations_twin :
    (¬ Binary32.nan == 0 ∧ ¬ Binary32.nan == 1) ∧
    (standing.blend striding twinTree .nan)["leg"]? = some (raised.lerp turned .nan) ∧
    (standing.blend striding twinTree .nan)["hip"]? = some turned ∧
    "hat" ∉ standing.blend striding twinTree .nan ∧
    (standing.difference striding twinTree)["hip"]? = some (turned.difference .identity) ∧
    (standing.layer striding twinTree .nan)["leg"]? =
      some ((Transform.identity.lerp turned .nan).applyTo raised) ∧
    standing.blend striding twinTree 0 = standing ∧ standing.blend striding twinTree 1 = striding := by
  obtain ⟨hblend, ⟨hbonewise, hdifference⟩, hlayer, hends⟩ := bonewise_operations
  have hzero : ¬ Binary32.nan == 0 := by decide
  have hone : ¬ Binary32.nan == 1 := by decide
  obtain ⟨hblended, hvalues⟩ := hblend .nan hzero hone
  obtain ⟨hlayered, hlayer⟩ := hlayer .nan hzero
  refine ⟨⟨hzero, hone⟩, ?_, ?_, ?_, ?_, ?_, ?_, ?_⟩
  · exact (hvalues standing striding twinTree "leg" (by decide)).1 raised turned rfl rfl
  · exact (hvalues standing striding twinTree "hip" (by decide)).2.2 (by decide)
  · intro hhat
    exact absurd ((hblended.mem_iff _ _ _ _).1 hhat).1 (by decide)
  · exact hdifference standing striding twinTree "hip" ((hbonewise.mem_iff _ _ _ _).2 (by decide))
  · exact hlayer standing striding twinTree "leg" ((hlayered.mem_iff _ _ _ _).2 (by decide))
  · exact ((hends 0 standing striding twinTree).1 (by decide)).1
  · exact (hends 1 standing striding twinTree).2 (by decide)

end Armature.Pose
