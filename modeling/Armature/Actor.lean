import Armature.Graph.Evaluate
import Armature.Player

/-!
Actors: instances of a skeleton, each moved by something of its own.
-/

namespace Armature

/-- What moves an actor. -/
inductive Motion (α : Type) where
  | graph (graph : Graph α)
  | clip (player : Player α)
  | bindPose

/-- An instance of a skeleton with what moves it. -/
structure Actor (α : Type) where
  skeleton : Asset (Skeleton α)
  motion : Motion α

namespace Actor

variable {α : Type}

/-- An actor that is moved by a graph, on the skeleton of the graph. -/
def ofGraph (graph : Graph α) : Actor α := ⟨graph.skeleton, .graph graph⟩

def ofPlayer (skeleton : Asset (Skeleton α)) (player : Player α) : Actor α := ⟨skeleton, .clip player⟩

def ofSkeleton (skeleton : Asset (Skeleton α)) : Actor α := ⟨skeleton, .bindPose⟩

def graph? (actor : Actor α) : Option (Graph α) :=
  match actor.motion with
  | .graph graph => some graph
  | _ => none

def player? (actor : Actor α) : Option (Player α) :=
  match actor.motion with
  | .clip player => some player
  | _ => none

/-- The palette of the next frame, written over what a buffer holds, and the actor after it. Every motion is placed
    below the root transform of the settings. -/
def update [Scalar α] (actor : Actor α) (settings : Settings α) (timestep : α) (buffer : Palette α := #[]) :
    Palette α × Actor α :=
  match actor.motion with
  | .graph graph =>
    let (palette, graph) := graph.updateWithRoot timestep settings.rootTransform buffer
    (palette, { actor with motion := .graph graph })
  | .clip player =>
    let (palette, player) := player.update actor.skeleton.value settings timestep buffer
    (palette, { actor with motion := .clip player })
  | .bindPose => (actor.skeleton.value.finalizeBindPose settings.rootTransform buffer, actor)

end Actor
end Armature
