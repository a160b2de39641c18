import Armature.Number.Binary32
import Armature.Proofs.Palette
import Mathlib.Data.List.Basic
import Mathlib.Data.List.Induction

/-!
# What a palette holds

Names may repeat in a tree, so a bone is told from the others by its lineage: the bones above it, from the root down.
Each place of a palette has at most one owner, which is the last bone in the order of a visit of those that the table
gives the place. The place holds the matrix of its owner, a product along the lineage, or the identity if it has no owner
(`palette_entries`). So a bone moves only what is below it: two poses that differ in one name have the same palette apart
from the places of bones of that name and of bones below one (`palette_eq_off_subtree`).
-/

namespace Armature

/-! ## Lineages -/

/-- A bone of a tree, with the bones above it from the root down. -/
structure Lineage (α : Type) where
  ancestors : List (Bone α)
  bone : Bone α

namespace Lineage

variable {α : Type}

/-- The bones from the root down to the bone itself. -/
def path (lineage : Lineage α) : List (Bone α) := lineage.ancestors ++ [lineage.bone]

/-- The lineage of the bone when its tree hangs below a parent. -/
def below (parent : Bone α) (lineage : Lineage α) : Lineage α := ⟨parent :: lineage.ancestors, lineage.bone⟩

/-- The product of a matrix and the local matrices of the bones from the root down, from left to right. -/
def matrix [Scalar α] (lineage : Lineage α) (localMatrix : Bone α → Mat4 α) (rootParent : Mat4 α) : Mat4 α :=
  lineage.path.foldl (fun placed bone => placed * localMatrix bone) rootParent

end Lineage

namespace Bones

variable {α : Type}

/-- The lineages of the bones, in the order of a visit. -/
def lineages : Bones α → List (Lineage α)
  | nil => []
  | cons bone children siblings => ⟨[], bone⟩ :: children.lineages.map (.below bone) ++ siblings.lineages

/-- A bone is placed at the product along its lineage. -/
theorem place_eq [Scalar α] (localMatrix : Bone α → Mat4 α) (parent : Mat4 α) (bones : Bones α) :
    bones.place localMatrix parent =
      bones.lineages.map fun lineage => (lineage.bone, lineage.matrix localMatrix parent) := by
  induction bones generalizing parent with
  | nil => rfl
  | cons bone children siblings ihChildren ihSiblings =>
    rw [place, lineages, ihChildren, ihSiblings, List.map_append, List.map_cons, List.map_map]
    -- the products of the children start with the matrix of the bone
    rfl

/-- The bones of a lineage are bones of the tree. -/
theorem mem_toList_of_mem_path {bones : Bones α} {lineage : Lineage α} (h : lineage ∈ bones.lineages) :
    ∀ bone ∈ lineage.path, bone ∈ bones.toList := by
  induction bones generalizing lineage with
  | nil => cases h
  | cons parent children siblings ihChildren ihSiblings =>
    intro bone hbone
    rw [lineages, List.cons_append, List.mem_cons, List.mem_append] at h
    rw [toList, List.cons_append, List.mem_cons, List.mem_append]
    rcases h with rfl | hbelow | hbeside
    · exact .inl (List.mem_singleton.1 hbone)
    · obtain ⟨lineage, hlineage, rfl⟩ := List.mem_map.1 hbelow
      rcases List.mem_cons.1 hbone with rfl | hbone
      · exact .inl rfl
      · exact .inr (.inl (ihChildren hlineage bone hbone))
    · exact .inr (.inr (ihSiblings hbeside bone hbone))

end Bones

namespace BoneTree

variable {α : Type}

/-- The lineages of the bones, in the order of a visit. -/
def lineages (tree : BoneTree α) : List (Lineage α) := (Bones.cons tree.root tree.children .nil).lineages

theorem place_eq [Scalar α] (tree : BoneTree α) (localMatrix : Bone α → Mat4 α) (rootParent : Mat4 α) :
    tree.place localMatrix rootParent =
      tree.lineages.map fun lineage => (lineage.bone, lineage.matrix localMatrix rootParent) :=
  Bones.place_eq localMatrix rootParent (.cons tree.root tree.children .nil)

theorem name_mem_of_mem_path {tree : BoneTree α} {lineage : Lineage α} (h : lineage ∈ tree.lineages) {bone : Bone α}
    (hbone : bone ∈ lineage.path) : bone.name ∈ tree.names := by
  have hmem : bone ∈ (Bones.cons tree.root tree.children .nil).toList := Bones.mem_toList_of_mem_path h bone hbone
  apply List.mem_map_of_mem
  simpa [Bones.toList, toList] using hmem

end BoneTree

namespace Skeleton

variable {α : Type}

/-! ## Tables -/

section Table

variable {tree : BoneTree α} {entries : List (String × BoneInfo α)} {inverseTransform : Mat4 α}

theorem mem_ofList_iff {name : String} :
    name ∈ Std.ExtTreeMap.ofList entries ↔ ∃ entry ∈ entries, entry.1 = name := by
  rw [Std.ExtTreeMap.mem_ofList, List.contains_iff_mem, List.mem_map]

/-- A skeleton that is made has the given parts. -/
theorem of_ofTable_eq_ok {skeleton : Skeleton α} (h : ofTable tree entries inverseTransform = .ok skeleton) :
    skeleton.tree = tree ∧ skeleton.table = Std.ExtTreeMap.ofList entries ∧
      skeleton.inverseTransform = inverseTransform := by
  dsimp only [ofTable] at h
  split at h
  · cases h
  · obtain rfl := Except.ok.inj h
    exact ⟨rfl, rfl, rfl⟩

/-- What is missing is a bone of the table. -/
theorem of_ofTable_eq_error {error : Error} (h : ofTable tree entries inverseTransform = .error error) :
    ∃ entry ∈ entries, entry.1 ∉ tree.names ∧ error = .missingBone entry.1 := by
  dsimp only [ofTable] at h
  split at h
  · next missing hmissing =>
    obtain rfl := Except.error.inj h
    have hkey := List.mem_of_find?_eq_some hmissing
    obtain ⟨entry, hentry, rfl⟩ := mem_ofList_iff.1 (Std.ExtTreeMap.mem_keys.1 hkey)
    exact ⟨entry, hentry, by simpa using List.find?_some hmissing, rfl⟩
  · cases h

theorem exists_ofTable_eq_ok_iff :
    (∃ skeleton, ofTable tree entries inverseTransform = .ok skeleton) ↔ ∀ entry ∈ entries, entry.1 ∈ tree.names := by
  constructor
  · rintro ⟨skeleton, h⟩ entry hentry
    obtain ⟨rfl, htable, -⟩ := of_ofTable_eq_ok h
    apply skeleton.mem_names_of_mem_table
    rw [htable]
    exact mem_ofList_iff.2 ⟨entry, hentry, rfl⟩
  · intro hentries
    cases h : ofTable tree entries inverseTransform with
    | ok skeleton => exact ⟨skeleton, rfl⟩
    | error error =>
      obtain ⟨entry, hentry, hmissing, -⟩ := of_ofTable_eq_error h
      exact absurd (hentries entry hentry) hmissing

end Table

/-! ## Owners -/

/-- The bones among some that the table gives a place, in the same order. -/
def attachedAt (skeleton : Skeleton α) (index : Nat) (lineages : List (Lineage α)) :
    List (Lineage α × BoneInfo α) :=
  lineages.filterMap fun lineage =>
    (skeleton.table[lineage.bone.name]?.filter (·.index == index)).map (lineage, ·)

/-- The bone whose matrix a place holds: of the bones with the place, the last in the order of a visit. -/
def owner? (skeleton : Skeleton α) (index : Nat) : Option (Lineage α × BoneInfo α) :=
  (skeleton.attachedAt index skeleton.tree.lineages).getLast?

theorem mem_lineages_of_owner? {skeleton : Skeleton α} {index : Nat} {lineage : Lineage α} {info : BoneInfo α}
    (h : skeleton.owner? index = some (lineage, info)) : lineage ∈ skeleton.tree.lineages := by
  obtain ⟨attached, hattached, hsome⟩ := List.mem_filterMap.1 (List.mem_of_getLast? h)
  obtain ⟨_, -, hpair⟩ := Option.map_eq_some_iff.1 hsome
  obtain ⟨rfl, -⟩ := Prod.mk.inj hpair
  exact hattached

variable [Scalar α]

/-- What a place holds that has the given owner. -/
def ownedEntry (skeleton : Skeleton α) (pose : Pose α) (rootParent : Mat4 α) :
    Option (Lineage α × BoneInfo α) → Mat4 α
  | some (lineage, info) =>
    skeleton.inverseTransform * lineage.matrix (localMatrix pose) rootParent * info.offset
  | none => Mat4.identity

/-- What a place of the palette of a pose holds below a parent matrix. -/
def entry (skeleton : Skeleton α) (pose : Pose α) (rootParent : Mat4 α) (index : Nat) : Mat4 α :=
  skeleton.ownedEntry pose rootParent (skeleton.owner? index)

/-- The places that a palette grows by hold the identity. -/
theorem getD_rightpad (palette : Palette α) (size index : Nat) :
    (palette.rightpad size Mat4.identity)[index]?.getD Mat4.identity = palette[index]?.getD Mat4.identity := by
  by_cases hindex : index < palette.size
  · simp [Array.getElem?_append_left hindex]
  · have hlater := Nat.le_of_not_lt hindex
    rw [Array.rightpad, Array.getElem?_append_right hlater, Array.getElem?_eq_none hlater, Array.getElem?_replicate]
    split <;> rfl

/-- Writing a bone changes the place alone that the table gives it. -/
theorem getD_writeBone (skeleton : Skeleton α) (palette : Palette α) (bone : Bone α) (placed : Mat4 α)
    (index : Nat) :
    (skeleton.writeBone palette (bone, placed))[index]?.getD Mat4.identity =
      match skeleton.table[bone.name]?.filter (·.index == index) with
      | some info => skeleton.inverseTransform * placed * info.offset
      | none => palette[index]?.getD Mat4.identity := by
  cases hinfo : skeleton.table[bone.name]? with
  | none => simp [writeBone, hinfo]
  | some info =>
    simp only [writeBone, hinfo, Array.getElem?_setIfInBounds, Option.filter_some]
    by_cases hindex : info.index = index
    · have hlt : info.index < (palette.rightpad (info.index + 1) Mat4.identity).size := by
        rw [Array.size_rightpad]
        omega
      rw [if_pos hindex, if_pos hlt, if_pos (beq_iff_eq.2 hindex)]
      rfl
    · rw [if_neg hindex, getD_rightpad, if_neg (mt beq_iff_eq.1 hindex)]

/-- After some bones are written, a place holds the matrix of the last of them that the table gives the place. -/
theorem getD_foldl_writeBone (skeleton : Skeleton α) (pose : Pose α) (rootParent : Mat4 α)
    (lineages : List (Lineage α)) (index : Nat) :
    ((lineages.map fun lineage => (lineage.bone, lineage.matrix (localMatrix pose) rootParent)).foldl
        skeleton.writeBone #[])[index]?.getD Mat4.identity =
      skeleton.ownedEntry pose rootParent (skeleton.attachedAt index lineages).getLast? := by
  induction lineages using List.reverseRecOn with
  | nil => rfl
  | append_singleton lineages last ih =>
    rw [List.map_append, List.foldl_append, List.map_singleton, List.foldl_cons, List.foldl_nil, getD_writeBone,
      attachedAt, List.filterMap_append, List.getLast?_append]
    -- the bone that is written last has the place, or leaves it to those before
    cases hlast : skeleton.table[last.bone.name]?.filter (·.index == index) with
    | some info => simp [hlast, ownedEntry]
    | none => simpa [hlast, attachedAt] using ih

/-- The places of a palette hold the matrices of their owners. -/
theorem getElem_finalize (skeleton : Skeleton α) (pose : Pose α) (rootParent : Mat4 α) {index : Nat}
    (h : index < (skeleton.finalize pose rootParent).size) :
    (skeleton.finalize pose rootParent)[index] = skeleton.entry pose rootParent index := by
  have hentry : (skeleton.finalize pose rootParent)[index]?.getD Mat4.identity =
      skeleton.entry pose rootParent index := by
    rw [finalize, finalizeInto, Palette.clear_eq_empty, BoneTree.place_eq]
    exact skeleton.getD_foldl_writeBone pose rootParent skeleton.tree.lineages index
  rwa [Array.getElem?_eq_getElem h] at hentry

/-- What a place holds depends on the transforms of the bones alone that its owner is one of or is below. -/
theorem entry_congr (skeleton : Skeleton α) {pose pose' : Pose α} (rootParent : Mat4 α) {index : Nat}
    (h : ∀ lineage info, skeleton.owner? index = some (lineage, info) →
      ∀ bone ∈ lineage.path, pose[bone.name]? = pose'[bone.name]?) :
    skeleton.entry pose rootParent index = skeleton.entry pose' rootParent index := by
  unfold entry
  cases howner : skeleton.owner? index with
  | none => rfl
  | some owner =>
    obtain ⟨lineage, info⟩ := owner
    have hlocal : ∀ bone ∈ lineage.path, localMatrix pose bone = localMatrix pose' bone := by
      intro bone hbone
      rw [localMatrix, localMatrix, h lineage info howner bone hbone]
    have hmatrix : lineage.matrix (localMatrix pose) rootParent = lineage.matrix (localMatrix pose') rootParent := by
      apply List.foldl_ext
      intro placed bone hbone
      rw [hlocal bone hbone]
    simp only [ownedEntry, hmatrix]

theorem finalize_congr (skeleton : Skeleton α) {pose pose' : Pose α} (rootParent : Mat4 α)
    (h : ∀ name ∈ skeleton.tree.names, pose[name]? = pose'[name]?) :
    skeleton.finalize pose rootParent = skeleton.finalize pose' rootParent := by
  apply Array.ext
  · rw [size_finalize, size_finalize]
  · intro index hindex hindex'
    rw [getElem_finalize, getElem_finalize]
    apply entry_congr
    intro lineage info howner bone hbone
    exact h bone.name (BoneTree.name_mem_of_mem_path (mem_lineages_of_owner? howner) hbone)

/-! ## Palettes -/

/-- A skeleton is made exactly if the bones of the table are in the tree; otherwise one that is not is named. The
    palettes of the skeleton have one length, whatever the buffer held that they are written into, and each place holds
    the matrix of its owner. Transforms of bones that are not in the tree make no difference. -/
theorem palette_entries (tree : BoneTree α) (entries : List (String × BoneInfo α)) (inverseTransform : Mat4 α) :
    ((∃ skeleton, ofTable tree entries inverseTransform = .ok skeleton) ↔
      ∀ entry ∈ entries, entry.1 ∈ tree.names) ∧
    (∀ error, ofTable tree entries inverseTransform = .error error →
      ∃ entry ∈ entries, entry.1 ∉ tree.names ∧ error = .missingBone entry.1) ∧
    ∀ skeleton, ofTable tree entries inverseTransform = .ok skeleton →
      skeleton.tree = tree ∧ skeleton.table = Std.ExtTreeMap.ofList entries ∧
      skeleton.inverseTransform = inverseTransform ∧
      ∀ (pose : Pose α) (rootParent : Mat4 α) (buffer : Palette α),
        let palette := skeleton.finalizeInto buffer pose rootParent
        palette.size = skeleton.paletteLength ∧
        (∀ index (h : index < palette.size), palette[index] = skeleton.entry pose rootParent index) ∧
        ∀ (pose' : Pose α) (buffer' : Palette α), (∀ name ∈ tree.names, pose'[name]? = pose[name]?) →
          skeleton.finalizeInto buffer' pose' rootParent = palette := by
  refine ⟨exists_ofTable_eq_ok_iff, fun error herror => of_ofTable_eq_error herror, ?_⟩
  intro skeleton hskeleton
  obtain ⟨rfl, htable, hinverse⟩ := of_ofTable_eq_ok hskeleton
  refine ⟨rfl, htable, hinverse, ?_⟩
  intro pose rootParent buffer
  simp only [finalizeInto_eq_finalize]
  refine ⟨size_finalize skeleton pose rootParent, ?_, ?_⟩
  · intro index hindex
    exact skeleton.getElem_finalize pose rootParent hindex
  · intro pose' _ hposes
    exact skeleton.finalize_congr rootParent hposes

/-- A step along the first axis. -/
def aside : Transform Binary32 := .ofTranslation ⟨1, 0, 0⟩

/-- A crab that has two legs of one name, each with a claw, and an eye. -/
def crabTree : BoneTree Binary32 :=
  ⟨⟨"shell", .identity⟩,
    .cons ⟨"leg", .identity⟩ (.cons ⟨"claw", .identity⟩ .nil .nil) <|
    .cons ⟨"leg", aside.toMatrix⟩ (.cons ⟨"claw", .identity⟩ .nil .nil) <|
    .cons ⟨"eye", .identity⟩ .nil .nil⟩

/-- The legs and the eye have one place; two places have no bone. -/
def crabTable : List (String × BoneInfo Binary32) :=
  [("leg", ⟨0, .identity⟩), ("claw", ⟨3, .identity⟩), ("eye", ⟨0, aside.toMatrix⟩)]

def crab : Skeleton Binary32 where
  tree := crabTree
  table := Std.ExtTreeMap.ofList crabTable
  inverseTransform := .identity
  mem_names_of_mem_table name h := by
    obtain ⟨entry, hentry, rfl⟩ := mem_ofList_iff.1 h
    have hnames : ∀ entry ∈ crabTable, entry.1 ∈ crabTree.names := by decide
    exact hnames entry hentry

/-- The claws are moved. -/
def wave : Pose Binary32 := (∅ : Pose Binary32).insert "claw" aside

theorem getElem?_wave_insert {name other : String} (h : other ≠ name) :
    (wave.insert name aside)[other]? = wave[other]? :=
  (Pose.getElem?_assign wave name other (some aside)).trans (if_neg h)

/-- The eye has its place, being visited after the legs, and so has the second claw. A tail is no bone of the crab. -/
theorem palette_entries_crab :
    ofTable crabTree crabTable .identity = .ok crab ∧
    ofTable crabTree (("tail", ⟨1, .identity⟩) :: crabTable) .identity = .error (.missingBone "tail") ∧
    let palette := crab.finalizeInto #[aside.toMatrix] wave aside.toMatrix
    palette.size = 4 ∧
    palette[0]? = some (Mat4.identity * (aside.toMatrix * Mat4.identity * Mat4.identity) * aside.toMatrix) ∧
    palette[1]? = some Mat4.identity ∧
    palette[3]? =
      some (Mat4.identity * (aside.toMatrix * Mat4.identity * aside.toMatrix * aside.toMatrix) * Mat4.identity) ∧
    crab.finalizeInto #[] (wave.insert "tail" aside) aside.toMatrix = palette := by
  have hmade : ofTable crabTree crabTable .identity = .ok crab := rfl
  refine ⟨hmade, ?_, ?_⟩
  · obtain ⟨hiff, herror, -⟩ := palette_entries crabTree (("tail", ⟨1, .identity⟩) :: crabTable) .identity
    cases h : ofTable crabTree (("tail", ⟨1, .identity⟩) :: crabTable) .identity with
    | ok skeleton => exact absurd (hiff.1 ⟨skeleton, h⟩ _ List.mem_cons_self) (by decide)
    | error error =>
      obtain ⟨entry, hentry, hmissing, rfl⟩ := herror error h
      rcases List.mem_cons.1 hentry with rfl | hentry
      · rfl
      · have hnames : ∀ entry ∈ crabTable, entry.1 ∈ crabTree.names := by decide
        exact absurd (hnames entry hentry) hmissing
  · obtain ⟨-, -, -, hpalette⟩ := (palette_entries crabTree crabTable .identity).2.2 crab hmade
    obtain ⟨hsize, hentries, hsame⟩ := hpalette wave aside.toMatrix #[aside.toMatrix]
    have hentry : ∀ index < 4, (crab.finalizeInto #[aside.toMatrix] wave aside.toMatrix)[index]? =
        some (crab.entry wave aside.toMatrix index) := by
      intro index hindex
      rw [Array.getElem?_eq_getElem (hsize.symm ▸ hindex), hentries]
    refine ⟨hsize, hentry 0 (by decide), hentry 1 (by decide), hentry 3 (by decide), hsame _ _ ?_⟩
    intro name hname
    apply getElem?_wave_insert
    rintro rfl
    exact absurd hname (by decide)

/-- Two poses that differ in the transform of one name have palettes of one length, which agree in all places but those
    whose owners have that name or are below a bone that has it. They are the same if no bone of the tree has the name. -/
theorem palette_eq_off_subtree (skeleton : Skeleton α) (rootParent : Mat4 α) (moved : String) {pose pose' : Pose α}
    (h : ∀ name, name ≠ moved → pose[name]? = pose'[name]?) (buffer buffer' : Palette α) :
    let palette := skeleton.finalizeInto buffer pose rootParent
    let palette' := skeleton.finalizeInto buffer' pose' rootParent
    palette.size = palette'.size ∧
    (∀ index, (∀ lineage info, skeleton.owner? index = some (lineage, info) →
        ∀ bone ∈ lineage.path, bone.name ≠ moved) → palette[index]? = palette'[index]?) ∧
    (moved ∉ skeleton.tree.names → palette = palette') := by
  simp only [finalizeInto_eq_finalize, size_finalize, true_and]
  constructor
  · intro index howner
    by_cases hindex : index < skeleton.paletteLength
    · have hentry : skeleton.entry pose rootParent index = skeleton.entry pose' rootParent index := by
        apply entry_congr
        intro lineage info hlineage bone hbone
        exact h bone.name (howner lineage info hlineage bone hbone)
      rw [Array.getElem?_eq_getElem (by simpa using hindex), Array.getElem?_eq_getElem (by simpa using hindex),
        getElem_finalize, getElem_finalize, hentry]
    · rw [Array.getElem?_eq_none (by simpa using hindex), Array.getElem?_eq_none (by simpa using hindex)]
  · intro hmoved
    apply finalize_congr
    intro name hname
    apply h
    rintro rfl
    exact hmoved hname

/-- Legs that are moved leave the place alone that they have together with the eye. -/
theorem palette_eq_off_subtree_crab :
    (∀ name, name ≠ "leg" → wave[name]? = (wave.insert "leg" aside)[name]?) ∧
    (crab.finalizeInto #[] wave .identity).size = (crab.finalizeInto #[] (wave.insert "leg" aside) .identity).size ∧
    (crab.finalizeInto #[] wave .identity)[0]? = (crab.finalizeInto #[] (wave.insert "leg" aside) .identity)[0]? ∧
    crab.finalizeInto #[] wave .identity = crab.finalizeInto #[] (wave.insert "tail" aside) .identity := by
  have hleg : ∀ name, name ≠ "leg" → wave[name]? = (wave.insert "leg" aside)[name]? :=
    fun name hname => (getElem?_wave_insert hname).symm
  have htail : ∀ name, name ≠ "tail" → wave[name]? = (wave.insert "tail" aside)[name]? :=
    fun name hname => (getElem?_wave_insert hname).symm
  obtain ⟨hsize, hplaces, -⟩ := palette_eq_off_subtree crab .identity "leg" hleg #[] #[]
  obtain ⟨-, -, hsame⟩ := palette_eq_off_subtree crab .identity "tail" htail #[] #[]
  refine ⟨hleg, hsize, hplaces 0 ?_, hsame (by decide)⟩
  intro lineage info howner
  have heye : crab.owner? 0 = some (⟨[⟨"shell", .identity⟩], ⟨"eye", .identity⟩⟩, ⟨0, aside.toMatrix⟩) := rfl
  obtain ⟨rfl, -⟩ := Prod.mk.inj (Option.some.inj (heye.symm.trans howner))
  decide

end Skeleton
end Armature
