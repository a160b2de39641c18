import Armature.Actor

/-!
Stages, which own actors and update them all once per frame.

The palettes of an update are written first, and published together when all actors have been updated, so
that readers see whole frames. What is written and what readers see has its buffers each, which are used
again in every update.
-/

namespace Armature

abbrev ActorKey := Key .actor

/-- Palettes by the number of the key of their actor. -/
abbrev PaletteMap (α : Type) := Std.ExtTreeMap Nat (Palette α)

structure Stage (α : Type) where
  actors : Arena .actor (Actor α)
  /-- The palettes of the last update, without those of actors that have been removed since. -/
  written : PaletteMap α
  /-- The palettes that readers see. -/
  published : PaletteMap α
  settings : Settings α

namespace Stage

variable {α : Type}

def ofSettings (settings : Settings α) : Stage α :=
  { actors := .empty, written := ∅, published := ∅, settings }

def insert (stage : Stage α) (actor : Actor α) : ActorKey × Stage α :=
  (stage.actors.nextKey, { stage with actors := stage.actors.insert actor })

/-- Removes an actor, and returns it. Readers see its palette until the next update. -/
def remove? (stage : Stage α) (key : ActorKey) : Option (Actor α × Stage α) :=
  (stage.actors.get? key).map fun actor =>
    (actor, { stage with
      actors := stage.actors.erase key
      written := stage.written.erase key.id })

def get? (stage : Stage α) (key : ActorKey) : Option (Actor α) := stage.actors.get? key

def modify (stage : Stage α) (key : ActorKey) (f : Actor α → Actor α) : Stage α :=
  { stage with actors := stage.actors.modify key f }

def size (stage : Stage α) : Nat := stage.actors.size

/-- The palette that the last update wrote for an actor. -/
def writtenPalette? (stage : Stage α) (key : ActorKey) : Option (Palette α) :=
  stage.written[key.id]?

/-- The palette of an actor that readers see. -/
def publishedPalette? (stage : Stage α) (key : ActorKey) : Option (Palette α) :=
  stage.published[key.id]?

/-- Updates one actor, and writes its palette over that of the update before. -/
def updateActor [Scalar α] (timestep : α) (stage : Stage α) (entry : ActorKey × Actor α) :
    Stage α :=
  let buffer := stage.written[entry.1.id]?.getD (.emptyWithCapacity stage.settings.paletteCapacity)
  let (palette, actor) := entry.2.update stage.settings timestep buffer
  { stage with
    actors := stage.actors.modify entry.1 fun _ => actor
    written := stage.written.insert entry.1.id palette }

/-- Copies a palette that has been written to where readers see it, over that of the update before. -/
def publishPalette (published : PaletteMap α) (id : Nat) (palette : Palette α) : PaletteMap α :=
  published.insert id ((published[id]?.getD #[]).clear ++ palette)

/-- Lets readers see what has been written, all at once, and nothing else. -/
def publish (stage : Stage α) : Stage α :=
  { stage with
    published := stage.written.foldl publishPalette
      (stage.published.filter fun id _ => stage.written.contains id) }

/-- Updates all actors, then publishes their palettes. -/
def update [Scalar α] (stage : Stage α) (timestep : α) : Stage α :=
  (stage.actors.toList.foldl (updateActor timestep) stage).publish

end Stage

/-- What a reader asks of the palettes that are published, with the type of the answer. -/
inductive Inquiry (α : Type) : Type → Type 1
  | palette (key : ActorKey) : Inquiry α (Option (Palette α))
  /-- What a function makes of a palette. -/
  | withPalette {β : Type} (key : ActorKey) (f : Palette α → β) : Inquiry α (Option β)
  /-- All palettes. -/
  | snapshot : Inquiry α (PaletteMap α)
  | size : Inquiry α Nat
  | isEmpty : Inquiry α Bool

/-- The answer that a reader gets. Readers differ in nothing: they all see what is published. -/
def Inquiry.answer {α β : Type} (published : PaletteMap α) : Inquiry α β → β
  | palette key => published[key.id]?
  | withPalette key f => published[key.id]?.map f
  | snapshot => published
  | size => published.size
  | isEmpty => published.isEmpty

end Armature
