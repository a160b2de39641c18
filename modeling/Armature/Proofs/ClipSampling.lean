import Armature.Proofs.PaletteEntries

/-!
# What a clip writes into a pose

A clip that is sampled into a pose writes the bones of the tree that it animates, and leaves all other entries of the
pose alone (`Pose.sampleInto_entries`). A component whose track has no keys is taken from the bind transform; names may
repeat in a tree, and the bind transform of a name is that of the last bone in the order of a visit that has it. Which
entries are written does not depend on the time, so the last sampling counts.
-/

namespace Armature

namespace BoneTree

variable {α : Type}

/-- The last bone of a name in the order of a visit. -/
def lastNamed? (tree : BoneTree α) (name : String) : Option (Bone α) :=
  (tree.toList.filter (·.name = name)).getLast?

theorem exists_lastNamed? {tree : BoneTree α} {name : String} (h : name ∈ tree.names) :
    ∃ bone, tree.lastNamed? name = some bone := by
  obtain ⟨bone, hbone, hname⟩ := List.mem_map.1 h
  have hmem : bone ∈ tree.toList.filter (·.name = name) := List.mem_filter.2 ⟨hbone, decide_eq_true hname⟩
  exact Option.isSome_iff_exists.1 (List.getLast?_isSome.2 (List.ne_nil_of_mem hmem))

theorem lastNamed?_eq_none {tree : BoneTree α} {name : String} (h : name ∉ tree.names) :
    tree.lastNamed? name = none := by
  rw [lastNamed?, List.getLast?_eq_none_iff, List.filter_eq_nil_iff]
  intro bone hbone hname
  exact h (List.mem_map.2 ⟨bone, hbone, of_decide_eq_true hname⟩)

end BoneTree

namespace Pose

variable {α : Type} [Scalar α] (clip : Clip α) (tree : BoneTree α) (time : α) (pose : Pose α)

/-- What a clip writes for a name: the transform of the last bone of that name, if the clip animates the name. -/
def written (name : String) : Option (Transform α) :=
  clip.bones[name]?.bind fun track =>
    (tree.lastNamed? name).map fun bone => track.sample time (Transform.ofMatrix bone.bind)

variable {clip tree time pose}

/-- After some bones are written, an animated name has the transform of the last of them that has the name. -/
theorem getElem?_foldl_clipBone {name : String} {track : BoneTrack α} (htrack : clip.bones[name]? = some track)
    (bones : List (Bone α)) :
    (bones.foldl (fun pose bone => pose.assign bone.name (clipBone clip time bone)) pose)[name]? =
      ((bones.filter (·.name = name)).getLast?.map fun bone =>
        track.sample time (Transform.ofMatrix bone.bind)).or pose[name]? := by
  induction bones using List.reverseRecOn with
  | nil => rfl
  | append_singleton bones last ih =>
    rw [List.foldl_append, List.foldl_cons, List.foldl_nil, getElem?_assign, List.filter_append, List.getLast?_append]
    by_cases hname : last.name = name
    · subst hname
      simp [clipBone, htrack]
    · rw [if_neg (Ne.symm hname), ih]
      simp [hname]

/-- A name that is not animated is never written. -/
theorem getElem?_foldl_clipBone_of_none {name : String} (hnone : clip.bones[name]? = none) (bones : List (Bone α)) :
    (bones.foldl (fun pose bone => pose.assign bone.name (clipBone clip time bone)) pose)[name]? = pose[name]? := by
  induction bones using List.reverseRecOn with
  | nil => rfl
  | append_singleton bones last ih =>
    rw [List.foldl_append, List.foldl_cons, List.foldl_nil, getElem?_assign, ih]
    split
    · next hname =>
      subst hname
      rw [clipBone, hnone]
      rfl
    · rfl

/-- An entry is what is written for its name, or what it was. -/
theorem getElem?_sampleInto (clip : Clip α) (tree : BoneTree α) (time : α) (pose : Pose α) (name : String) :
    (sampleInto clip tree time pose)[name]? = (written clip tree time name).or pose[name]? := by
  rw [sampleInto, written]
  cases htrack : clip.bones[name]? with
  | some track => exact getElem?_foldl_clipBone htrack tree.toList
  | none => exact getElem?_foldl_clipBone_of_none htrack tree.toList

/-- Which names are written does not depend on the time. -/
theorem isSome_written (clip : Clip α) (tree : BoneTree α) (time : α) (name : String) :
    (written clip tree time name).isSome ↔ name ∈ tree.names ∧ name ∈ clip.bones := by
  rw [written, Std.ExtTreeMap.mem_iff_isSome_getElem?]
  cases clip.bones[name]? with
  | none => simp
  | some track =>
    by_cases hname : name ∈ tree.names
    · obtain ⟨bone, hbone⟩ := BoneTree.exists_lastNamed? hname
      simp [hname, hbone]
    · simp [hname, BoneTree.lastNamed?_eq_none hname]

/-- What is sampled first is written over. -/
theorem sampleInto_sampleInto (clip : Clip α) (tree : BoneTree α) (first second : α) (pose : Pose α) :
    sampleInto clip tree second (sampleInto clip tree first pose) = sampleInto clip tree second pose := by
  apply Std.ExtTreeMap.ext_getElem?
  intro name
  have hsame : (written clip tree second name).isSome ↔ (written clip tree first name).isSome :=
    (isSome_written clip tree second name).trans (isSome_written clip tree first name).symm
  rw [getElem?_sampleInto, getElem?_sampleInto, getElem?_sampleInto]
  cases hsecond : written clip tree second name with
  | some transform => rfl
  | none =>
    have hfirst : written clip tree first name = none := by
      rw [← Option.not_isSome_iff_eq_none, ← hsame, hsecond]
      exact Bool.false_ne_true
    rw [hfirst, Option.none_or, Option.none_or]

/-- The bones of a tree that a clip animates get each component from the track of their name if that has keys, and else
    from the bind transform of the last bone of the name. All other entries of a pose are what they were, and no others
    are made. A pose that is sampled twice is as if it had been sampled at the second time alone. -/
theorem sampleInto_entries (clip : Clip α) (tree : BoneTree α) (time : α) (pose : Pose α) :
    let sampled := sampleInto clip tree time pose
    (∀ name ∈ tree.names, ∀ track, clip.bones[name]? = some track →
      ∃ bone, tree.lastNamed? name = some bone ∧
        let bind := Transform.ofMatrix bone.bind
        sampled[name]? = some {
          translation := if track.translations.isEmpty then bind.translation else track.translations.sample time
          rotation := if track.rotations.isEmpty then bind.rotation else track.rotations.sample time
          scale := if track.scales.isEmpty then bind.scale else track.scales.sample time }) ∧
    (∀ name, name ∉ tree.names ∨ name ∉ clip.bones → sampled[name]? = pose[name]?) ∧
    (∀ name, name ∈ sampled ↔ name ∈ tree.names ∧ name ∈ clip.bones ∨ name ∈ pose) ∧
    sampleInto clip tree time sampled = sampled ∧
    ∀ later, sampleInto clip tree later sampled = sampleInto clip tree later pose := by
  intro sampled
  have hentry := getElem?_sampleInto clip tree time pose
  have hwritten := isSome_written clip tree time
  refine ⟨?_, ?_, ?_, ?_, ?_⟩
  · intro name hname track htrack
    obtain ⟨bone, hbone⟩ := BoneTree.exists_lastNamed? hname
    refine ⟨bone, hbone, ?_⟩
    rw [hentry name, written, htrack, hbone]
    rfl
  · intro name hname
    have hnone : written clip tree time name = none := by
      rw [← Option.not_isSome_iff_eq_none, hwritten name]
      tauto
    rw [hentry name, hnone, Option.none_or]
  · intro name
    rw [← hwritten name, Std.ExtTreeMap.mem_iff_isSome_getElem?, Std.ExtTreeMap.mem_iff_isSome_getElem?,
      hentry name, Option.isSome_or, Bool.or_eq_true]
  · exact sampleInto_sampleInto clip tree time time pose
  · intro later
    exact sampleInto_sampleInto clip tree time later pose

/-! ### A kick -/

/-- A foot that is lifted, with no keys for its rotation and its scale. -/
def lifted : BoneTrack Binary32 := ⟨.constant ⟨0, 1, 0⟩, .empty, .empty⟩

/-- A clip of the legs and of a tail. -/
def kick : Clip Binary32 := ⟨"kick", 1, 1, Std.ExtTreeMap.ofList [("leg", lifted), ("tail", lifted)]⟩

/-- The crab has no tail, and the bind transform of its legs is that of the second one. Its claws stay waved. -/
theorem sampleInto_entries_kick :
    let bind := Transform.ofMatrix Skeleton.aside.toMatrix
    let sampled := sampleInto kick Skeleton.crabTree 0 Skeleton.wave
    "leg" ∈ Skeleton.crabTree.names ∧ kick.bones["leg"]? = some lifted ∧ "tail" ∉ Skeleton.crabTree.names ∧
    "claw" ∉ kick.bones ∧ sampled["leg"]? = some ⟨⟨0, 1, 0⟩, bind.rotation, bind.scale⟩ ∧
    sampled["claw"]? = some Skeleton.aside ∧ "tail" ∉ sampled ∧
    sampleInto kick Skeleton.crabTree 1 sampled = sampleInto kick Skeleton.crabTree 1 Skeleton.wave := by
  intro bind sampled
  obtain ⟨hanimated, hother, hmem, -, hlater⟩ := sampleInto_entries kick Skeleton.crabTree 0 Skeleton.wave
  have hleg : "leg" ∈ Skeleton.crabTree.names := by decide
  have htrack : kick.bones["leg"]? = some lifted := rfl
  have htail : "tail" ∉ Skeleton.crabTree.names := by decide
  have hclaw : "claw" ∉ kick.bones := by decide
  refine ⟨hleg, htrack, htail, hclaw, ?_, ?_, ?_, hlater 1⟩
  · obtain ⟨bone, hbone, hsampled⟩ := hanimated "leg" hleg lifted htrack
    have hlast : Skeleton.crabTree.lastNamed? "leg" = some ⟨"leg", Skeleton.aside.toMatrix⟩ := rfl
    obtain rfl := Option.some.inj (hlast.symm.trans hbone)
    exact hsampled
  · exact hother "claw" (.inr hclaw)
  · intro hsampled
    rcases (hmem "tail").1 hsampled with ⟨hname, -⟩ | hpose
    · exact htail hname
    · exact absurd hpose (by decide)

end Pose
end Armature
