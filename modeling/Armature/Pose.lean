import Armature.Bone
import Armature.Clip
import Std.Data.ExtTreeMap.Lemmas

/-!
Sparse poses: the local transforms of the bones that an animation has touched.

Poses are combined bone by bone along a bone tree. A bone that is missing from a pose is left out by a
blend, and counts as the identity in the additive operations.
-/

namespace Armature

abbrev Pose (α : Type) := Std.ExtTreeMap String (Transform α)

namespace Pose

variable {α : Type}

def assign (pose : Pose α) (name : String) : Option (Transform α) → Pose α
  | some transform => pose.insert name transform
  | none => pose

theorem getElem?_assign (pose : Pose α) (name other : String) (transform? : Option (Transform α)) :
    (pose.assign name transform?)[other]? =
      if other = name then transform?.or pose[other]? else pose[other]? := by
  cases transform? <;> grind [assign]

/-- The pose with the given transforms for the bones of a tree that have one. -/
def collect (tree : BoneTree α) (transform? : String → Option (Transform α)) : Pose α :=
  tree.names.foldl (fun pose name => pose.assign name (transform? name)) ∅

theorem getElem?_foldl_assign (transform? : String → Option (Transform α)) (names : List String)
    (pose : Pose α) (name : String) :
    (names.foldl (fun pose name => pose.assign name (transform? name)) pose)[name]? =
      if name ∈ names then (transform? name).or pose[name]? else pose[name]? := by
  induction names generalizing pose with
  | nil => simp
  | cons first rest ih => simp only [List.foldl_cons, ih, getElem?_assign]; grind

/-- A collected pose holds the given transforms, and those alone. -/
@[simp] theorem getElem?_collect (tree : BoneTree α) (transform? : String → Option (Transform α))
    (name : String) :
    (collect tree transform?)[name]? = if name ∈ tree.names then transform? name else none := by
  rw [collect, getElem?_foldl_assign]
  simp

variable [Scalar α]

def isEqual (a b : Pose α) : Bool :=
  a.size == b.size && a.all fun name transform => b[name]?.any (transform == ·)

/-- The transform that a clip gives a bone, if it animates it. -/
def clipBone (clip : Clip α) (time : α) (bone : Bone α) : Option (Transform α) :=
  clip.bones[bone.name]?.map fun track => track.sample time (Transform.ofMatrix bone.bind)

/-- Writes the transforms that a clip gives the bones of a tree into a pose. -/
def sampleInto (clip : Clip α) (tree : BoneTree α) (time : α) (pose : Pose α) : Pose α :=
  tree.toList.foldl (fun pose bone => pose.assign bone.name (clipBone clip time bone)) pose

/-- The pose that a clip gives the bones of a tree. -/
def sample (clip : Clip α) (tree : BoneTree α) (time : α) : Pose α :=
  sampleInto clip tree time ∅

/-- The transform of a bone in a blend: interpolated if both poses have the bone, else the one there is. -/
def blendBone (a b : Pose α) (weight : α) (name : String) : Option (Transform α) :=
  match a[name]?, b[name]? with
  | some p, some q => some (p.lerp q weight)
  | some p, none => some p
  | none, some q => some q
  | none, none => none

/-- Blends from `a` at weight `0` to `b` at weight `1`, where the poses themselves are returned. -/
def blend (a b : Pose α) (tree : BoneTree α) (weight : α) : Pose α :=
  if weight == 0 then a
  else if weight == 1 then b
  else collect tree (blendBone a b weight)

/-- The transform of a bone in an additive: what leads from the reference to the source. -/
def differenceBone (reference source : Pose α) (name : String) : Option (Transform α) :=
  let p := reference[name]?
  let q := source[name]?
  if p.isSome || q.isSome then
    some ((q.getD Transform.identity).difference (p.getD Transform.identity))
  else none

/-- The additive that leads from the reference pose to the source pose. -/
def difference (reference source : Pose α) (tree : BoneTree α) : Pose α :=
  collect tree (differenceBone reference source)

/-- The transform of a bone when an additive is applied to a target: the additive is taken in part, and
    goes on top of the target. -/
def layerBone (target additive : Pose α) (weight : α) (name : String) : Option (Transform α) :=
  let p := target[name]?
  let q := additive[name]?
  if p.isSome || q.isSome then
    some ((Transform.identity.lerp (q.getD Transform.identity) weight).applyTo
      (p.getD Transform.identity))
  else none

/-- Applies an additive on top of a target. At weight `0` the target itself is returned. -/
def layer (target additive : Pose α) (tree : BoneTree α) (weight : α) : Pose α :=
  if weight == 0 then target else collect tree (layerBone target additive weight)

end Pose
end Armature
