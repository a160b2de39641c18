import Armature.Error
import Armature.Pose

/-!
Skeletons, and the palettes of matrices that move the vertices of a mesh.

A skeleton is a bone tree with a table of the bones that vertices are attached to. Finalizing a pose
places the bones, from the root down, and writes a matrix for each bone of the table into the palette.
Whoever needs a palette in every frame finalizes into the same buffer again and again.
-/

namespace Armature

/-- How the vertices attached to a bone are moved. -/
structure BoneInfo (α : Type) where
  index : Nat
  /-- The matrix from the space of the model to the space of the bone in its bind pose. -/
  offset : Mat4 α

/-- The matrices that vertices are moved by. -/
abbrev Palette (α : Type) := Array (Mat4 α)

/-- Drops the contents of a buffer. -/
def Palette.clear {α : Type} (buffer : Palette α) : Palette α := buffer.take 0

@[simp] theorem Palette.clear_eq_empty {α : Type} (buffer : Palette α) : buffer.clear = #[] := by
  simp [clear]

/-- A bone tree with the table of the bones that vertices are attached to. -/
structure Skeleton (α : Type) where
  tree : BoneTree α
  table : Std.ExtTreeMap String (BoneInfo α)
  /-- The inverse of the root transform of the model, which every palette entry starts with. -/
  inverseTransform : Mat4 α
  /-- Vertices are attached to bones of the tree alone. -/
  mem_names_of_mem_table : ∀ name ∈ table, name ∈ tree.names

namespace Skeleton

variable {α : Type} [Scalar α]

/-- The skeleton with the given parts, if the tree has every bone of the table. Of several entries for one
    bone the last counts. -/
def ofTable (tree : BoneTree α) (entries : List (String × BoneInfo α)) (inverseTransform : Mat4 α) :
    Except Error (Skeleton α) :=
  let table : Std.ExtTreeMap String (BoneInfo α) := Std.ExtTreeMap.ofList entries
  match hmissing : table.keys.find? (· ∉ tree.names) with
  | some missing => .error (.missingBone missing)
  | none =>
    have hnames : ∀ name ∈ table, name ∈ tree.names := by simpa using hmissing
    .ok { tree, table, inverseTransform, mem_names_of_mem_table := hnames }

/-- The skeleton of a tree to which no vertices are attached. -/
def ofTree (tree : BoneTree α) : Skeleton α where
  tree
  table := ∅
  inverseTransform := Mat4.identity
  mem_names_of_mem_table _ h := (Std.ExtTreeMap.not_mem_empty h).elim

def boneCount (skeleton : Skeleton α) : Nat := skeleton.table.size

/-- The length of the palettes: every bone of the table has a place. -/
def paletteLength (skeleton : Skeleton α) : Nat :=
  skeleton.table.foldl (fun length _ info => max length (info.index + 1)) 0

/-- The local matrix of a bone: that of the pose, or else the bind transform. -/
def localMatrix (pose : Pose α) (bone : Bone α) : Mat4 α :=
  match pose[bone.name]? with
  | some transform => transform.toMatrix
  | none => bone.bind

/-- Writes the matrix of a placed bone into a palette, if vertices are attached to the bone. The palette
    grows as far as it has to; new places hold the identity. -/
def writeBone (skeleton : Skeleton α) (palette : Palette α) (placed : Bone α × Mat4 α) : Palette α :=
  match skeleton.table[placed.1.name]? with
  | some info =>
    (palette.rightpad (info.index + 1) Mat4.identity).setIfInBounds info.index
      (skeleton.inverseTransform * placed.2 * info.offset)
  | none => palette

/-- Writes the palette of a pose below a parent matrix over what a buffer holds. Places that no bone has hold
    the identity; of several bones with one place, the last in the order of a visit has it. -/
def finalizeInto (skeleton : Skeleton α) (buffer : Palette α) (pose : Pose α) (rootParent : Mat4 α) :
    Palette α :=
  (skeleton.tree.place (localMatrix pose) rootParent).foldl skeleton.writeBone buffer.clear

/-- The palette of a pose below a parent matrix. -/
def finalize (skeleton : Skeleton α) (pose : Pose α) (rootParent : Mat4 α) : Palette α :=
  skeleton.finalizeInto #[] pose rootParent

/-- The palette of the bind pose below a parent matrix, written over what a buffer holds. -/
def finalizeBindPose (skeleton : Skeleton α) (rootParent : Mat4 α) (buffer : Palette α := #[]) : Palette α :=
  skeleton.finalizeInto buffer ∅ rootParent

/-- What a buffer holds is lost when a palette is written into it. -/
@[simp] theorem finalizeInto_eq_finalize (skeleton : Skeleton α) (buffer : Palette α) (pose : Pose α)
    (rootParent : Mat4 α) : skeleton.finalizeInto buffer pose rootParent = skeleton.finalize pose rootParent := by
  simp [finalize, finalizeInto]

end Skeleton
end Armature
