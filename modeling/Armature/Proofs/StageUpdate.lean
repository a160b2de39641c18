import Armature.Stage
import Mathlib.Data.List.Nodup

/-!
# Updates of a stage

An update goes through the actors, each of which writes into the buffer that it had in the update before, and then copies
what has been written to where readers see it. What comes of it is a whole frame: the palette that each actor computes
on its own, into an empty buffer, and nothing else (`Stage.published_update`, `Stage.written_update`).

Between updates actors come, go and are edited (`Stage.Change`). Readers see nothing of that, and what has been written
is kept for the actors that are left (`Stage.Sound`).
-/

namespace Armature

variable {α : Type}

section Actor

variable [Scalar α]

theorem Graph.updateWithRoot_buffer (graph : Graph α) (timestep : α) (rootParent : Mat4 α) (buffer : Palette α) :
    graph.updateWithRoot timestep rootParent buffer = graph.updateWithRoot timestep rootParent := by
  simp [Graph.updateWithRoot]

theorem Player.update_buffer (player : Player α) (skeleton : Skeleton α) (settings : Settings α) (timestep : α)
    (buffer : Palette α) :
    player.update skeleton settings timestep buffer = player.update skeleton settings timestep := by
  simp [Player.update]

theorem Skeleton.finalizeBindPose_buffer (skeleton : Skeleton α) (rootParent : Mat4 α) (buffer : Palette α) :
    skeleton.finalizeBindPose rootParent buffer = skeleton.finalizeBindPose rootParent := by
  simp [Skeleton.finalizeBindPose]

/-- Whatever moves an actor, nothing of what a buffer holds is left when the palette has been written into it. -/
theorem Actor.update_buffer (actor : Actor α) (settings : Settings α) (timestep : α) (buffer : Palette α) :
    actor.update settings timestep buffer = actor.update settings timestep := by
  unfold Actor.update
  cases actor.motion with
  | graph graph => simp only [graph.updateWithRoot_buffer _ _ buffer]
  | clip player => simp only [player.update_buffer _ _ _ buffer]
  | bindPose => simp only [Skeleton.finalizeBindPose_buffer _ _ buffer]

/-- The room that palettes have from the start does not matter to an actor. -/
theorem Actor.update_paletteCapacity (actor : Actor α) (settings : Settings α) (timestep : α) (paletteCapacity : Nat) :
    actor.update { settings with paletteCapacity } timestep = actor.update settings timestep := by
  unfold Actor.update
  cases actor.motion with
  | graph graph => rfl
  | clip player => rfl
  | bindPose => rfl

end Actor

namespace Stage

/-! ## Publication -/

theorem publishPalette_eq_insert (published : PaletteMap α) (id : Nat) (palette : Palette α) :
    publishPalette published id palette = published.insert id palette := by
  simp [publishPalette]

theorem getElem?_foldl_publishPalette {entries : List (Nat × Palette α)} (hnodup : (entries.map (·.1)).Nodup)
    (published : PaletteMap α) (id : Nat) :
    (∀ palette, (id, palette) ∈ entries →
      (entries.foldl (fun published entry => publishPalette published entry.1 entry.2) published)[id]? =
        some palette) ∧
    (id ∉ entries.map (·.1) →
      (entries.foldl (fun published entry => publishPalette published entry.1 entry.2) published)[id]? =
        published[id]?) := by
  induction entries generalizing published with
  | nil => simp
  | cons first entries ih =>
    rw [List.map_cons, List.nodup_cons] at hnodup
    obtain ⟨hmem, hrest⟩ := ih hnodup.2 (publishPalette published first.1 first.2)
    rw [publishPalette_eq_insert] at hmem hrest
    simp only [List.foldl_cons, publishPalette_eq_insert published]
    constructor
    · intro palette hpalette
      rcases List.mem_cons.1 hpalette with rfl | hpalette
      · rw [hrest hnodup.1]
        simp
      · exact hmem palette hpalette
    · intro hid
      rw [List.map_cons, List.mem_cons, not_or] at hid
      rw [hrest hid.2, Std.ExtTreeMap.getElem?_insert, if_neg]
      simpa using Ne.symm hid.1

/-- Readers see what has been written, once it is published. -/
theorem published_publish (stage : Stage α) : stage.publish.published = stage.written := by
  refine Std.ExtTreeMap.ext_getElem? fun id => ?_
  have hnodup : (stage.written.toList.map (·.1)).Nodup := by
    rw [show (stage.written.toList.map (·.1)) = stage.written.keys from Std.ExtTreeMap.map_fst_toList_eq_keys]
    exact Std.ExtTreeMap.nodup_keys
  obtain ⟨hmem, hrest⟩ := getElem?_foldl_publishPalette hnodup
    (stage.published.filter fun id _ => stage.written.contains id) id
  rw [publish, Std.ExtTreeMap.foldl_eq_foldl_toList]
  cases hwritten : stage.written[id]? with
  | some palette => exact hmem palette (Std.ExtTreeMap.mem_toList_iff_getElem?_eq_some.2 hwritten)
  | none =>
    rw [hrest ?_, Std.ExtTreeMap.getElem?_filter]
    · simp [Std.ExtTreeMap.contains_eq_isSome_getElem?, hwritten]
    · rintro hid
      obtain ⟨⟨_, palette⟩, hentry, rfl⟩ := List.mem_map.1 hid
      rw [Std.ExtTreeMap.mem_toList_iff_getElem?_eq_some.1 hentry] at hwritten
      cases hwritten

/-! ## Updates of the actors -/

variable [Scalar α]

/-- The palettes of a frame: what each actor computes on its own. -/
def frame (stage : Stage α) (timestep : α) : PaletteMap α :=
  stage.actors.entries.map fun _ actor => (actor.update stage.settings timestep).1

theorem getElem?_frame (stage : Stage α) (timestep : α) (key : ActorKey) :
    (stage.frame timestep)[key.id]? =
      (stage.get? key).map fun actor => (actor.update stage.settings timestep).1 :=
  Std.ExtTreeMap.getElem?_map

theorem updateActor_eq (timestep : α) (stage : Stage α) (entry : ActorKey × Actor α) :
    stage.updateActor timestep entry =
      { stage with
        actors := stage.actors.modify entry.1 fun _ => (entry.2.update stage.settings timestep).2
        written := stage.written.insert entry.1.id (entry.2.update stage.settings timestep).1 } := by
  rw [updateActor, Actor.update_buffer]

@[simp] theorem published_updateActor (timestep : α) (stage : Stage α) (entry : ActorKey × Actor α) :
    (stage.updateActor timestep entry).published = stage.published := rfl

theorem get?_updateActor (timestep : α) {stage : Stage α} {entry : ActorKey × Actor α}
    (hentry : stage.get? entry.1 = some entry.2) (key : ActorKey) :
    (stage.updateActor timestep entry).get? key =
      if key = entry.1 then some (entry.2.update stage.settings timestep).2 else stage.get? key := by
  rw [updateActor_eq, get?, Arena.get?_modify]
  by_cases heq : key = entry.1
  · rw [if_pos heq, if_pos heq, heq, show stage.actors.get? entry.1 = some entry.2 from hentry]
    rfl
  · rw [if_neg heq, if_neg heq]
    rfl

theorem get?_updateActor_of_gone (timestep : α) {stage : Stage α} (entry : ActorKey × Actor α) {key : ActorKey}
    (h : stage.get? key = none) : (stage.updateActor timestep entry).get? key = none := by
  rw [updateActor_eq, get?, Arena.get?_modify, show stage.actors.get? key = none from h]
  split <;> rfl

theorem writtenPalette?_updateActor (timestep : α) (stage : Stage α) (entry : ActorKey × Actor α) (key : ActorKey) :
    (stage.updateActor timestep entry).writtenPalette? key =
      if key = entry.1 then some (entry.2.update stage.settings timestep).1 else stage.writtenPalette? key := by
  rw [updateActor_eq, writtenPalette?, Std.ExtTreeMap.getElem?_insert]
  by_cases heq : key = entry.1
  · simp [heq]
  · have hne : entry.1.id ≠ key.id := fun hid => heq (congrArg Key.mk hid.symm)
    simp [heq, hne, writtenPalette?]

/-- Some actors have been updated, each on its own, and the others are as they were. Readers have seen nothing of it. -/
structure Updated (stage : Stage α) (timestep : α) (entries : List (ActorKey × Actor α)) (now : Stage α) : Prop where
  settings : now.settings = stage.settings
  published : now.published = stage.published
  issued : now.actors.issued = stage.actors.issued
  done : ∀ key actor, (key, actor) ∈ entries →
    now.get? key = some (actor.update stage.settings timestep).2 ∧
      now.writtenPalette? key = some (actor.update stage.settings timestep).1
  untouched : ∀ key, key ∉ entries.map (·.1) →
    now.get? key = stage.get? key ∧ now.writtenPalette? key = stage.writtenPalette? key

theorem updated_foldl (timestep : α) {entries : List (ActorKey × Actor α)} (hnodup : (entries.map (·.1)).Nodup)
    {stage : Stage α} (hentries : ∀ entry ∈ entries, stage.get? entry.1 = some entry.2) :
    stage.Updated timestep entries (entries.foldl (updateActor timestep) stage) := by
  induction entries generalizing stage with
  | nil => exact ⟨rfl, rfl, rfl, by simp, fun _ _ => ⟨rfl, rfl⟩⟩
  | cons first entries ih =>
    rw [List.map_cons, List.nodup_cons] at hnodup
    obtain ⟨hfirst, hentries⟩ := List.forall_mem_cons.1 hentries
    have hget := get?_updateActor timestep hfirst
    have hwritten := stage.writtenPalette?_updateActor timestep first
    -- the actors that follow are other ones, so they are still to be found as they were
    have hrest := ih hnodup.2 fun entry hentry => by
      have hne : entry.1 ≠ first.1 := fun heq => hnodup.1 (heq ▸ List.mem_map_of_mem hentry)
      rw [hget, if_neg hne]
      exact hentries entry hentry
    refine ⟨hrest.settings, hrest.published, hrest.issued, fun key actor hactor => ?_, fun key hkey => ?_⟩
    · rcases List.mem_cons.1 hactor with rfl | hactor
      · obtain ⟨hactors, hpalette⟩ := hrest.untouched key hnodup.1
        rw [List.foldl_cons, hactors, hpalette, hget, hwritten, if_pos rfl, if_pos rfl]
        exact ⟨rfl, rfl⟩
      · exact hrest.done key actor hactor
    · rw [List.map_cons, List.mem_cons, not_or] at hkey
      obtain ⟨hactors, hpalette⟩ := hrest.untouched key hkey.2
      rw [List.foldl_cons, hactors, hpalette, hget, hwritten, if_neg hkey.1, if_neg hkey.1]
      exact ⟨rfl, rfl⟩

/-- Nothing is written for an actor that is not there. -/
def Tidy (stage : Stage α) : Prop := ∀ key, stage.get? key = none → stage.writtenPalette? key = none

omit [Scalar α] in
theorem nodup_toList (stage : Stage α) : (stage.actors.toList.map (·.1)).Nodup := by
  have hkeys : stage.actors.toList.map (·.1) = stage.actors.keys := by
    rw [Arena.keys, ← Std.ExtTreeMap.map_fst_toList_eq_keys, Arena.toList, List.map_map, List.map_map]
    rfl
  rw [hkeys]
  exact stage.actors.nodup_keys

theorem updated_all (stage : Stage α) (timestep : α) :
    stage.Updated timestep stage.actors.toList (stage.actors.toList.foldl (updateActor timestep) stage) :=
  updated_foldl timestep stage.nodup_toList fun entry hentry => (Arena.mem_toList _ entry.1 entry.2).1 hentry

omit [Scalar α] in
theorem notMem_toList {stage : Stage α} {key : ActorKey} (h : stage.get? key = none) :
    key ∉ stage.actors.toList.map (·.1) := by
  intro hkey
  obtain ⟨⟨_, actor⟩, hentry, rfl⟩ := List.mem_map.1 hkey
  have hactor := (Arena.mem_toList _ _ actor).1 hentry
  rw [show stage.actors.get? _ = none from h] at hactor
  cases hactor

/-! ## Updates -/

@[simp] theorem settings_update (stage : Stage α) (timestep : α) :
    (stage.update timestep).settings = stage.settings :=
  (stage.updated_all timestep).settings

@[simp] theorem issued_update (stage : Stage α) (timestep : α) :
    (stage.update timestep).actors.issued = stage.actors.issued :=
  (stage.updated_all timestep).issued

/-- An update updates every actor on its own. -/
theorem get?_update (stage : Stage α) (timestep : α) (key : ActorKey) :
    (stage.update timestep).get? key =
      (stage.get? key).map fun actor => (actor.update stage.settings timestep).2 := by
  have hupdated := stage.updated_all timestep
  cases hactor : stage.get? key with
  | some actor => exact (hupdated.done key actor ((Arena.mem_toList _ _ _).2 hactor)).1
  | none => exact (hupdated.untouched key (notMem_toList hactor)).1.trans hactor

/-- An update writes the palettes of a whole frame, and nothing else is left of what was written before. -/
theorem written_update {stage : Stage α} (htidy : stage.Tidy) (timestep : α) :
    (stage.update timestep).written = stage.frame timestep := by
  have hupdated := stage.updated_all timestep
  refine Std.ExtTreeMap.ext_getElem? fun id => ?_
  rw [stage.getElem?_frame timestep ⟨id⟩]
  cases hactor : stage.get? ⟨id⟩ with
  | some actor => exact (hupdated.done ⟨id⟩ actor ((Arena.mem_toList _ _ _).2 hactor)).2
  | none =>
    exact (hupdated.untouched ⟨id⟩ (notMem_toList hactor)).2.trans (htidy ⟨id⟩ hactor)

/-- After an update readers see its frame. -/
theorem published_update {stage : Stage α} (htidy : stage.Tidy) (timestep : α) :
    (stage.update timestep).published = stage.frame timestep :=
  (published_publish _).trans (written_update htidy timestep)

/-! ## Changes between updates -/

/-- What is done to the actors of a stage between updates. -/
inductive Change (α : Type) where
  | insert (actor : Actor α)
  | remove (key : ActorKey)
  /-- Whatever is done to an actor by who has access to it. -/
  | edit (key : ActorKey) (f : Actor α → Actor α)

omit [Scalar α]

/-- The stage after a change. Nothing comes of the removal of an actor that is not there. -/
def Change.run (stage : Stage α) : Change α → Stage α
  | insert actor => (stage.insert actor).2
  | remove key => ((stage.remove? key).map (·.2)).getD stage
  | edit key f => stage.modify key f

theorem run_remove_of_live {stage : Stage α} {key : ActorKey} {actor : Actor α} (h : stage.get? key = some actor) :
    (Change.remove key).run stage =
      { stage with actors := stage.actors.erase key, written := stage.written.erase key.id } := by
  simp only [Change.run, remove?, show stage.actors.get? key = some actor from h]
  rfl

theorem run_remove_of_gone {stage : Stage α} {key : ActorKey} (h : stage.get? key = none) :
    (Change.remove key).run stage = stage := by
  simp only [Change.run, remove?, show stage.actors.get? key = none from h]
  rfl

@[simp] theorem settings_change (stage : Stage α) (change : Change α) :
    (change.run stage).settings = stage.settings := by
  cases change with
  | remove key =>
    cases hactor : stage.get? key with
    | some actor => rw [run_remove_of_live hactor]
    | none => rw [run_remove_of_gone hactor]
  | _ => rfl

/-- Readers see nothing of a change. -/
@[simp] theorem published_change (stage : Stage α) (change : Change α) :
    (change.run stage).published = stage.published := by
  cases change with
  | remove key =>
    cases hactor : stage.get? key with
    | some actor => rw [run_remove_of_live hactor]
    | none => rw [run_remove_of_gone hactor]
  | _ => rfl

theorem issued_le_change (stage : Stage α) (change : Change α) :
    stage.actors.issued ≤ (change.run stage).actors.issued := by
  cases change with
  | insert actor => exact Nat.le_succ _
  | remove key =>
    cases hactor : stage.get? key with
    | some actor =>
      rw [run_remove_of_live hactor]
      exact Nat.le_refl _
    | none => exact Nat.le_of_eq (by rw [run_remove_of_gone hactor])
  | edit key f => exact Nat.le_refl _

/-! What a change leaves of the actor of a key, and of what has been written for it. -/

theorem get?_insert (stage : Stage α) (actor : Actor α) (key : ActorKey) :
    ((Change.insert actor).run stage).get? key =
      if key = stage.actors.nextKey then some actor else stage.get? key :=
  Arena.get?_insert _ _ _

theorem get?_remove (stage : Stage α) (other key : ActorKey) :
    ((Change.remove other).run stage).get? key = if key = other then none else stage.get? key := by
  cases hactor : stage.get? other with
  | some actor =>
    rw [run_remove_of_live hactor]
    exact Arena.get?_erase _ _ _
  | none =>
    rw [run_remove_of_gone hactor]
    by_cases heq : key = other
    · rw [if_pos heq, heq, hactor]
    · rw [if_neg heq]

theorem get?_edit (stage : Stage α) (other : ActorKey) (f : Actor α → Actor α) (key : ActorKey) :
    ((Change.edit other f).run stage).get? key = if key = other then (stage.get? key).map f else stage.get? key :=
  Arena.get?_modify _ _ _ _

/-- What is gone never comes back: actors that are inserted have new keys. -/
theorem get?_change_of_gone {stage : Stage α} {key : ActorKey} (hissued : key.id < stage.actors.issued)
    (h : stage.get? key = none) (change : Change α) : (change.run stage).get? key = none := by
  cases change with
  | insert actor =>
    have hne : key ≠ stage.actors.nextKey := by
      rintro rfl
      exact Nat.lt_irrefl _ hissued
    rw [get?_insert, if_neg hne, h]
  | remove other =>
    rw [get?_remove, h, ite_self]
  | edit other f =>
    rw [get?_edit, h, Option.map_none, ite_self]

theorem writtenPalette?_remove {stage : Stage α} (htidy : stage.Tidy) (other key : ActorKey) :
    ((Change.remove other).run stage).writtenPalette? key =
      if key = other then none else stage.writtenPalette? key := by
  cases hactor : stage.get? other with
  | some actor =>
    rw [run_remove_of_live hactor, writtenPalette?, Std.ExtTreeMap.getElem?_erase]
    by_cases heq : key = other
    · simp [heq]
    · have hne : other.id ≠ key.id := fun hid => heq (congrArg Key.mk hid.symm)
      simp [heq, hne, writtenPalette?]
  | none =>
    rw [run_remove_of_gone hactor]
    by_cases heq : key = other
    · rw [if_pos heq, heq, htidy other hactor]
    · rw [if_neg heq]

theorem Tidy.change {stage : Stage α} (h : stage.Tidy) (change : Change α) : (change.run stage).Tidy := by
  intro key hkey
  cases change with
  | insert actor =>
    rw [get?_insert] at hkey
    split at hkey
    · cases hkey
    · exact h key hkey
  | remove other =>
    rw [get?_remove] at hkey
    rw [writtenPalette?_remove h]
    by_cases heq : key = other
    · rw [if_pos heq]
    · rw [if_neg heq] at hkey ⊢
      exact h key hkey
  | edit other f =>
    rw [get?_edit] at hkey
    refine h key ?_
    split at hkey
    · exact Option.map_eq_none_iff.1 hkey
    · exact hkey

/-- What is left of what has been written was there before. -/
theorem writtenPalette?_of_change {stage : Stage α} (htidy : stage.Tidy) {change : Change α} {key : ActorKey}
    {palette : Palette α} (h : (change.run stage).writtenPalette? key = some palette) :
    stage.writtenPalette? key = some palette := by
  cases change with
  | remove other =>
    rw [writtenPalette?_remove htidy] at h
    split at h
    · cases h
    · exact h
  | _ => exact h

/-! ## What holds of every stage -/

/-- What holds of a stage between updates. -/
structure Sound (settings : Settings α) (stage : Stage α) : Prop where
  settings : stage.settings = settings
  tidy : stage.Tidy
  /-- Readers see what has been written. -/
  shown : ∀ key palette, stage.writtenPalette? key = some palette → stage.publishedPalette? key = some palette
  /-- Readers see palettes of actors alone that have been there. -/
  issued : ∀ key palette, stage.publishedPalette? key = some palette → key.id < stage.actors.issued

theorem sound_ofSettings (settings : Settings α) : (ofSettings settings).Sound settings where
  settings := rfl
  tidy key _ := by simp [writtenPalette?, ofSettings]
  shown key palette h := by simp [writtenPalette?, ofSettings] at h
  issued key palette h := by simp [publishedPalette?, ofSettings] at h

theorem lt_issued_of_get? {stage : Stage α} {key : ActorKey} {actor : Actor α} (h : stage.get? key = some actor) :
    key.id < stage.actors.issued := by
  by_contra hlater
  have hnone := stage.actors.entries_issued key.id (Nat.le_of_not_lt hlater)
  rw [get?, Arena.get?, hnone] at h
  cases h

variable {settings : Settings α} {stage : Stage α}

theorem Sound.change (h : stage.Sound settings) (change : Change α) : (change.run stage).Sound settings where
  settings := (stage.settings_change change).trans h.settings
  tidy := h.tidy.change change
  shown key palette hpalette := by
    rw [publishedPalette?, published_change]
    exact h.shown key palette (writtenPalette?_of_change h.tidy hpalette)
  issued key palette hpalette := by
    rw [publishedPalette?, published_change] at hpalette
    exact Nat.lt_of_lt_of_le (h.issued key palette hpalette) (stage.issued_le_change change)

theorem Sound.update [Scalar α] (h : stage.Sound settings) (timestep : α) : (stage.update timestep).Sound settings where
  settings := (stage.settings_update timestep).trans h.settings
  tidy key hkey := by
    rw [get?_update, Option.map_eq_none_iff] at hkey
    rw [writtenPalette?, written_update h.tidy, getElem?_frame, hkey]
    rfl
  shown key palette hpalette := by
    rw [publishedPalette?, published_update h.tidy, ← written_update h.tidy]
    exact hpalette
  issued key palette hpalette := by
    rw [publishedPalette?, published_update h.tidy, getElem?_frame] at hpalette
    obtain ⟨actor, hactor, -⟩ := Option.map_eq_some_iff.1 hpalette
    rw [issued_update]
    exact lt_issued_of_get? hactor

end Stage
end Armature
