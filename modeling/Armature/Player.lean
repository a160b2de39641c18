import Armature.Playback
import Armature.Skeleton

/-!
Clip players, which play one clip on a skeleton without a graph.
-/

namespace Armature

/-- A player. -/
structure Player (α : Type) where
  playback : Playback α
  speed : α
  looping : Bool
  paused : Bool
  /-- The pose of the last update. -/
  pose : Pose α

namespace Player

variable {α : Type} [Scalar α]

/-- A player at the start of a clip. -/
def ofClip (clip : Option (Asset (Clip α))) : Player α :=
  { playback := ⟨0, clip⟩, speed := 1, looping := true, paused := false, pose := ∅ }

/-- Changes the clip. Playback starts again unless the clip is the one that is playing. -/
def setClip (player : Player α) (clip : Option (Asset (Clip α))) : Player α :=
  { player with playback := player.playback.switch clip }

/-- The palette at the current position, written over what a buffer holds, and the player advanced by a time
    in seconds. Without a clip this is the bind pose. -/
def update (player : Player α) (skeleton : Skeleton α) (settings : Settings α) (timestep : α)
    (buffer : Palette α := #[]) : Palette α × Player α :=
  let playback := player.playback.settle
  let pose := playback.pose skeleton.tree
  let next :=
    if player.paused then playback
    else playback.advance settings timestep player.speed player.looping
  (skeleton.finalizeInto buffer pose settings.rootTransform, { player with playback := next, pose })

end Player
end Armature
