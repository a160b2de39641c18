import Armature.Proofs.StageUpdate

/-!
# Actors on a stage and on their own

Actors on one stage do not get in each other's way. The palettes of an actor are those of a copy of it that is kept apart,
given the same edits, and updated as often as the stage, each time into an empty buffer (`Stage.palette_eq_alone`). What
is done to other actors does not matter, nor the room that palettes have, nor what the buffers of the stage hold.
-/

namespace Armature
namespace Stage

variable {α : Type}

/-- What is done to a stage. -/
inductive Operation (α : Type) where
  | change (change : Change α)
  | update (timestep : α)

/-- What is done to one actor. -/
inductive Part (α : Type) where
  | edit (f : Actor α → Actor α)
  | remove
  | update (timestep : α)

/-- The part of an operation that concerns the actor of a key. Nothing concerns it that is done to other actors. -/
def Operation.part? (key : ActorKey) : Operation α → Option (Part α)
  | change (.insert _) => none
  | change (.remove other) => if key = other then some .remove else none
  | change (.edit other f) => if key = other then some (.edit f) else none
  | update timestep => some (.update timestep)

theorem filterMap_part?_cons (key : ActorKey) (operation : Operation α) (operations : List (Operation α)) :
    (operation :: operations).filterMap (Operation.part? key) =
      (operation.part? key).toList ++ operations.filterMap (Operation.part? key) := by
  cases hpart : operation.part? key with
  | none => rw [List.filterMap_cons_none hpart, Option.toList_none, List.nil_append]
  | some part => rw [List.filterMap_cons_some hpart, Option.toList_some, List.singleton_append]

variable [Scalar α]

def Operation.run (stage : Stage α) : Operation α → Stage α
  | change c => c.run stage
  | update timestep => stage.update timestep

/-- The stage after some operations. -/
def run (stage : Stage α) (operations : List (Operation α)) : Stage α := operations.foldl Operation.run stage

/-- The actor after its part, if it is still there. -/
def Part.run (settings : Settings α) (actor : Actor α) : Part α → Option (Actor α)
  | edit f => some (f actor)
  | remove => none
  | update timestep => some (actor.update settings timestep #[]).2

/-- An actor that is kept apart, after the parts that it has had. -/
def alone (settings : Settings α) (actor : Actor α) (parts : List (Part α)) : Option (Actor α) :=
  parts.foldlM (Part.run settings) actor

/-! ## Runs of a stage -/

variable {settings : Settings α} {stage : Stage α} {key : ActorKey}

theorem Sound.operation (h : stage.Sound settings) (operation : Operation α) :
    (operation.run stage).Sound settings := by
  cases operation with
  | change change => exact h.change change
  | update timestep => exact h.update timestep

theorem Sound.run (h : stage.Sound settings) (operations : List (Operation α)) :
    (stage.run operations).Sound settings := by
  induction operations generalizing stage with
  | nil => exact h
  | cons operation operations ih => exact ih (h.operation operation)

theorem issued_le_operation (stage : Stage α) (operation : Operation α) :
    stage.actors.issued ≤ (operation.run stage).actors.issued := by
  cases operation with
  | change change => exact stage.issued_le_change change
  | update timestep => exact Nat.le_of_eq (stage.issued_update timestep).symm

theorem alone_append (settings : Settings α) (actor : Actor α) (first rest : List (Part α)) :
    alone settings actor (first ++ rest) = (alone settings actor first).bind (alone settings · rest) :=
  List.foldlM_append

/-- An operation does its part to an actor that has been inserted, and nothing else. -/
theorem get?_operation (hsettings : stage.settings = settings) (hissued : key.id < stage.actors.issued)
    (operation : Operation α) :
    (operation.run stage).get? key =
      (stage.get? key).bind fun actor => alone settings actor (operation.part? key).toList := by
  have hnothing : (stage.get? key).bind (alone settings · []) = stage.get? key := Option.bind_fun_some _
  cases operation with
  | change change =>
    cases change with
    | insert actor =>
      have hne : key ≠ stage.actors.nextKey := by
        rintro rfl
        exact Nat.lt_irrefl _ hissued
      refine (stage.get?_insert actor key).trans ?_
      rw [if_neg hne]
      exact hnothing.symm
    | remove other =>
      refine (stage.get?_remove other key).trans ?_
      by_cases heq : key = other
      · simp [Operation.part?, heq, alone, Part.run]
      · simp [Operation.part?, heq, hnothing]
    | edit other f =>
      refine (stage.get?_edit other f key).trans ?_
      by_cases heq : key = other
      · simp only [Operation.part?, heq, if_true, Option.map_eq_bind]
        rfl
      · simp [Operation.part?, heq, hnothing]
  | update timestep =>
    subst hsettings
    exact (stage.get?_update timestep key).trans Option.map_eq_bind

theorem get?_run (hsound : stage.Sound settings) (hissued : key.id < stage.actors.issued)
    (operations : List (Operation α)) :
    (stage.run operations).get? key =
      (stage.get? key).bind fun actor => alone settings actor (operations.filterMap (Operation.part? key)) := by
  induction operations generalizing stage with
  | nil => exact (Option.bind_fun_some _).symm
  | cons operation operations ih =>
    have hrest := ih (hsound.operation operation) (Nat.lt_of_lt_of_le hissued (stage.issued_le_operation operation))
    rw [get?_operation hsound.settings hissued, Option.bind_assoc] at hrest
    refine hrest.trans ?_
    simp only [filterMap_part?_cons, alone_append]

/-! ## The room that palettes have -/

theorem run_paletteCapacity (settings : Settings α) (paletteCapacity : Nat) :
    Part.run { settings with paletteCapacity } = Part.run settings := by
  funext actor part
  cases part with
  | edit f => rfl
  | remove => rfl
  | update timestep => rw [Part.run, actor.update_paletteCapacity]; rfl

theorem alone_paletteCapacity (settings : Settings α) (paletteCapacity : Nat) :
    alone { settings with paletteCapacity } = alone settings := by
  unfold alone
  rw [run_paletteCapacity]

/-- After an update the palette of an actor, the one that is written and the one that readers see, is that of a copy of it
    that is kept apart, given the same edits, and updated as often since it was inserted, each time into an empty buffer:
    whatever is done to the stage before, whatever is done to other actors, and whatever room palettes have. -/
theorem palette_eq_alone (settings : Settings α) (paletteCapacity : Nat) (before after : List (Operation α))
    (actor : Actor α) (timestep : α) :
    let inserted := ((ofSettings { settings with paletteCapacity }).run before).insert actor
    let stage := (inserted.2.run after).update timestep
    let palette := (alone settings actor (after.filterMap (Operation.part? inserted.1))).map fun actor =>
      (actor.update settings timestep #[]).1
    stage.writtenPalette? inserted.1 = palette ∧ stage.publishedPalette? inserted.1 = palette := by
  intro inserted stage palette
  have hsound : inserted.2.Sound { settings with paletteCapacity } :=
    ((sound_ofSettings _).run before).change (.insert actor)
  have hissued : inserted.1.id < inserted.2.actors.issued := Nat.lt_succ_self _
  have hactor : inserted.2.get? inserted.1 = some actor :=
    (get?_insert _ actor _).trans (if_pos rfl)
  have hlast := hsound.run after
  -- the frame of the last update holds the palette of what has become of the actor
  have hframe : (((inserted.2.run after).frame timestep)[inserted.1.id]? : Option (Palette α)) = palette := by
    rw [getElem?_frame, get?_run hsound hissued, hactor, hlast.settings, Option.bind_some, alone_paletteCapacity]
    simp only [Actor.update_paletteCapacity]
    rfl
  exact ⟨by rw [writtenPalette?, written_update hlast.tidy, hframe],
    by rw [publishedPalette?, published_update hlast.tidy, hframe]⟩

end Stage
end Armature
