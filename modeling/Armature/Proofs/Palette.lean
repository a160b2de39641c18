import Armature.Number.Binary32
import Armature.Skeleton
import Mathlib.Logic.Basic

/-!
# Palettes

Every bone of the table of a skeleton has its place in the palettes of the skeleton.
-/

namespace Armature.Skeleton

variable {α : Type}

theorem le_foldl_max (entries : List (String × BoneInfo α)) (length : Nat) :
    length ≤ entries.foldl (fun length entry => max length (entry.2.index + 1)) length ∧
      ∀ entry ∈ entries,
        entry.2.index < entries.foldl (fun length entry => max length (entry.2.index + 1)) length := by
  induction entries generalizing length with
  | nil => simp
  | cons first entries ih =>
    obtain ⟨hle, hmem⟩ := ih (max length (first.2.index + 1))
    rw [List.foldl_cons]
    refine ⟨by omega, ?_⟩
    intro entry hentry
    rcases List.mem_cons.1 hentry with rfl | hentry
    · omega
    · exact hmem entry hentry

/-- The places of the bones of the table are below the length of the palettes. -/
theorem index_lt_paletteLength (skeleton : Skeleton α) {name : String} {info : BoneInfo α}
    (h : skeleton.table[name]? = some info) : info.index < skeleton.paletteLength := by
  rw [paletteLength, Std.ExtTreeMap.foldl_eq_foldl_toList]
  exact (le_foldl_max skeleton.table.toList 0).2 (name, info)
    (Std.ExtTreeMap.mem_toList_iff_getElem?_eq_some.2 h)

theorem foldl_max_le {entries : List (String × BoneInfo α)} {length bound : Nat} (hlength : length ≤ bound)
    (h : ∀ entry ∈ entries, entry.2.index < bound) :
    entries.foldl (fun length entry => max length (entry.2.index + 1)) length ≤ bound := by
  induction entries generalizing length with
  | nil => exact hlength
  | cons first entries ih =>
    obtain ⟨hfirst, hentries⟩ := List.forall_mem_cons.1 h
    exact ih (Nat.max_le.2 ⟨hlength, hfirst⟩) hentries

/-- The palettes are no longer than the places of the bones of the table require. -/
theorem paletteLength_le (skeleton : Skeleton α) {bound : Nat}
    (h : ∀ (name : String) (info : BoneInfo α), skeleton.table[name]? = some info → info.index < bound) :
    skeleton.paletteLength ≤ bound := by
  rw [paletteLength, Std.ExtTreeMap.foldl_eq_foldl_toList]
  refine foldl_max_le (Nat.zero_le _) fun (name, info) hentry => ?_
  exact h name info (Std.ExtTreeMap.mem_toList_iff_getElem?_eq_some.1 hentry)

variable [Scalar α]

/-- Writing a bone makes the palette as long as the place of the bone requires, if the bone has one. -/
theorem size_writeBone (skeleton : Skeleton α) (palette : Palette α) (placed : Bone α × Mat4 α) :
    (skeleton.writeBone palette placed).size =
      max palette.size (skeleton.table[placed.1.name]?.elim 0 (·.index + 1)) := by
  cases hinfo : skeleton.table[placed.1.name]? with
  | none => simp [writeBone, hinfo]
  | some info =>
    simp only [writeBone, hinfo, Array.size_setIfInBounds, Array.size_rightpad, Option.elim_some]
    omega

theorem size_foldl_writeBone_le (skeleton : Skeleton α) {bones : List (Bone α × Mat4 α)} {palette : Palette α}
    (h : palette.size ≤ skeleton.paletteLength) :
    (bones.foldl skeleton.writeBone palette).size ≤ skeleton.paletteLength := by
  induction bones generalizing palette with
  | nil => exact h
  | cons placed bones ih =>
    refine ih ?_
    rw [size_writeBone]
    refine Nat.max_le.2 ⟨h, ?_⟩
    cases hinfo : skeleton.table[placed.1.name]? with
    | none => exact Nat.zero_le _
    | some info => exact skeleton.index_lt_paletteLength hinfo

theorem le_size_foldl_writeBone (skeleton : Skeleton α) (bones : List (Bone α × Mat4 α)) (palette : Palette α) :
    palette.size ≤ (bones.foldl skeleton.writeBone palette).size ∧
      ∀ placed ∈ bones, ∀ info, skeleton.table[placed.1.name]? = some info →
        info.index < (bones.foldl skeleton.writeBone palette).size := by
  induction bones generalizing palette with
  | nil => simp
  | cons first bones ih =>
    obtain ⟨hle, hmem⟩ := ih (skeleton.writeBone palette first)
    rw [size_writeBone] at hle
    refine ⟨Nat.le_trans (Nat.le_max_left _ _) hle, fun placed hplaced info hinfo => ?_⟩
    rcases List.mem_cons.1 hplaced with rfl | hplaced
    · rw [hinfo] at hle
      exact Nat.le_trans (Nat.le_max_right _ _) hle
    · exact hmem placed hplaced info hinfo

/-- All palettes of a skeleton have one length: every bone of the table is in the tree, so that the palette grows
    until it has the places of them all. -/
@[simp] theorem size_finalize (skeleton : Skeleton α) (pose : Pose α) (rootParent : Mat4 α) :
    (skeleton.finalize pose rootParent).size = skeleton.paletteLength := by
  rw [finalize, finalizeInto, Palette.clear_eq_empty]
  refine Nat.le_antisymm (skeleton.size_foldl_writeBone_le (Nat.zero_le _)) (skeleton.paletteLength_le ?_)
  intro name info hinfo
  have hname : name ∈ skeleton.tree.names :=
    skeleton.mem_names_of_mem_table name (Std.ExtTreeMap.mem_iff_isSome_getElem?.2 (by simp [hinfo]))
  obtain ⟨bone, hbone, rfl⟩ := List.mem_map.1 hname
  rw [← BoneTree.map_fst_place skeleton.tree (localMatrix pose) rootParent] at hbone
  obtain ⟨placed, hplaced, rfl⟩ := List.mem_map.1 hbone
  exact (skeleton.le_size_foldl_writeBone _ #[]).2 placed hplaced info hinfo

end Armature.Skeleton

namespace Armature

/-- A skeleton of a single bone, which vertices are attached to. -/
def oneBone : Asset (Skeleton Binary32) where
  id := 0
  value := {
    tree := ⟨⟨"root", .identity⟩, .nil⟩
    table := (∅ : Std.ExtTreeMap String (BoneInfo Binary32)).insert "root" ⟨0, .identity⟩
    inverseTransform := .identity
    mem_names_of_mem_table := by simp [BoneTree.names, BoneTree.toList] }

/-- A clip of one tick, in which the bone goes up. -/
def hop : Asset (Clip Binary32) :=
  ⟨1, ⟨"hop", 1, 1, (∅ : Std.ExtTreeMap String (BoneTrack Binary32)).insert "root"
    ⟨⟨[⟨0, ⟨0, 0, 0⟩⟩, ⟨1, ⟨0, 1, 0⟩⟩]⟩, .constant .identity, .constant ⟨1, 1, 1⟩⟩⟩⟩

example (pose : Pose Binary32) : (oneBone.value.finalize pose .identity).size = 1 := oneBone.value.size_finalize pose _

/-- The clip gives the bone a transform at every position. -/
theorem root_mem_sample_hop (time : Binary32) : "root" ∈ Pose.sample hop.value oneBone.value.tree time := by
  simp [Pose.sample, Pose.sampleInto, oneBone, BoneTree.toList, Bones.toList, Pose.clipBone, hop, Pose.assign]

example : (Pose.sample hop.value oneBone.value.tree 1)["root"]? = some (.ofTranslation ⟨0, 1, 0⟩) := by decide

end Armature
