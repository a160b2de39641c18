import Armature.Pose
import Armature.Settings

/-!
Playing one clip: the position in the clip, and how it advances from frame to frame.
-/

namespace Armature

/-- A clip, if any, and the position in it. -/
structure Playback (α : Type) where
  /-- The position in ticks. -/
  time : α
  clip : Option (Asset (Clip α))

namespace Playback

variable {α : Type} [Scalar α]

/-- No clip. -/
def idle : Playback α := ⟨0, none⟩

/-- Changes the clip. Playback starts again unless the clip is the one that is playing. -/
def switch (playback : Playback α) (clip : Option (Asset (Clip α))) : Playback α :=
  ⟨if Asset.same playback.clip clip then playback.time else 0, clip⟩

/-- Starts again if the position is not a valid time of the clip. -/
def settle (playback : Playback α) : Playback α :=
  match playback.clip with
  | some clip => if clip.value.isValidTime playback.time then playback else { playback with time := 0 }
  | none => playback

/-- The pose at the position; empty without a clip. -/
def pose (playback : Playback α) (tree : BoneTree α) : Pose α :=
  match playback.clip with
  | some clip => Pose.sample clip.value tree playback.time
  | none => ∅

/-- Advances the position by a time in seconds, at a multiple of the rate of the clip. -/
def advance (playback : Playback α) (settings : Settings α) (timestep speed : α) (looping : Bool) :
    Playback α :=
  match playback.clip with
  | some clip =>
    let ticks := settings.ticksPerSecond clip.value.ticksPerSecond * timestep * speed
    { playback with time := clip.value.stepTime playback.time ticks looping }
  | none => playback

/-! Only a switch changes the clip. -/

@[simp] theorem clip_switch (playback : Playback α) (clip : Option (Asset (Clip α))) :
    (playback.switch clip).clip = clip := rfl

@[simp] theorem clip_settle (playback : Playback α) : playback.settle.clip = playback.clip := by
  unfold settle
  split
  · split <;> rfl
  · rfl

@[simp] theorem clip_advance (playback : Playback α) (settings : Settings α) (timestep speed : α) (looping : Bool) :
    (playback.advance settings timestep speed looping).clip = playback.clip := by
  unfold advance
  split <;> rfl

end Playback
end Armature
