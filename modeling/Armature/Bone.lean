import Armature.Geometry.Mat4

/-!
Bone trees: the bones of a skeleton in their bind pose, each placed relative to its parent.
-/

namespace Armature

/-- A bone and its bind transform, relative to its parent. -/
structure Bone (α : Type) where
  name : String
  bind : Mat4 α

/-- Sibling bones in order, each with the bones below it. -/
inductive Bones (α : Type) where
  | nil
  | cons (bone : Bone α) (children siblings : Bones α)

/-- A bone with all bones below it. -/
structure BoneTree (α : Type) where
  root : Bone α
  children : Bones α

namespace Bones

variable {α : Type}

/-- The bones in the order of a visit: each bone before the bones below it, and those before the siblings
    that follow. -/
def toList : Bones α → List (Bone α)
  | nil => []
  | cons bone children siblings => bone :: children.toList ++ siblings.toList

/-- Places the bones: each goes to the matrix of its parent times its own local matrix. -/
def place [Scalar α] (localMatrix : Bone α → Mat4 α) (parent : Mat4 α) :
    Bones α → List (Bone α × Mat4 α)
  | nil => []
  | cons bone children siblings =>
    let placed := parent * localMatrix bone
    (bone, placed) :: children.place localMatrix placed ++ siblings.place localMatrix parent

/-- Placing keeps the bones and their order. -/
@[simp] theorem map_fst_place [Scalar α] (localMatrix : Bone α → Mat4 α) (parent : Mat4 α)
    (bones : Bones α) : (bones.place localMatrix parent).map (·.1) = bones.toList := by
  induction bones generalizing parent with
  | nil => rfl
  | cons bone children siblings ihChildren ihSiblings =>
    simp [place, toList, ihChildren, ihSiblings]

end Bones

namespace BoneTree

variable {α : Type}

def toList (tree : BoneTree α) : List (Bone α) := tree.root :: tree.children.toList

def names (tree : BoneTree α) : List String := tree.toList.map (·.name)

def size (tree : BoneTree α) : Nat := tree.toList.length

/-- Places the bones below a parent matrix, in the order of a visit. -/
def place [Scalar α] (tree : BoneTree α) (localMatrix : Bone α → Mat4 α) (parent : Mat4 α) :
    List (Bone α × Mat4 α) :=
  Bones.place localMatrix parent (.cons tree.root tree.children .nil)

@[simp] theorem map_fst_place [Scalar α] (tree : BoneTree α) (localMatrix : Bone α → Mat4 α)
    (parent : Mat4 α) : (tree.place localMatrix parent).map (·.1) = tree.toList := by
  simp [place, toList, Bones.toList]

end BoneTree
end Armature
