import Armature.Asset
import Armature.Track
import Std.Data.ExtTreeMap.Basic

/-!
Animation clips: the tracks of the bones that an animation moves, and how a playback position advances.

Times are in ticks; a clip says how many ticks there are in a second.
-/

namespace Armature

/-- The tracks of one bone. -/
structure BoneTrack (α : Type) where
  translations : Track α (Vec3 α)
  rotations : Track α (Quat α)
  scales : Track α (Vec3 α)
deriving Inhabited

namespace BoneTrack

variable {α : Type} [Scalar α]

/-- The value of a track at a time, or the fallback if the track has no keys. -/
def sampleOr {β : Type} [Interpolable α β] (track : Track α β) (time : α) (fallback : β) : β :=
  if track.isEmpty then fallback else track.sample time

/-- The transform at a time. A component without keys is taken from `bind`. -/
def sample (track : BoneTrack α) (time : α) (bind : Transform α) : Transform α where
  translation := sampleOr track.translations time bind.translation
  rotation := sampleOr track.rotations time bind.rotation
  scale := sampleOr track.scales time bind.scale

/-- The latest time of the last keys. -/
def endTime (track : BoneTrack α) : α :=
  Scalar.max (Scalar.max track.translations.endTime track.rotations.endTime) track.scales.endTime

end BoneTrack

/-- A clip: the tracks of some bones. -/
structure Clip (α : Type) where
  name : String
  /-- The last playback position. -/
  duration : α
  /-- The playback rate; zero or less if the clip does not say. -/
  ticksPerSecond : α
  bones : Std.ExtTreeMap String (BoneTrack α)

namespace Clip

variable {α : Type} [Scalar α]

/-- The clip with the given tracks, which lasts until its latest key. Of several tracks for one bone the
    last counts. -/
def ofTracks (name : String) (ticksPerSecond : α) (tracks : List (String × BoneTrack α)) : Clip α :=
  let bones : Std.ExtTreeMap String (BoneTrack α) := Std.ExtTreeMap.ofList tracks
  { name
    duration := bones.foldl (fun latest _ track => Scalar.max latest track.endTime) 0
    ticksPerSecond
    bones }

def isValidTime (clip : Clip α) (time : α) : Bool := time ≤ clip.duration

/-- Moves a playback position by some ticks. Past either end, a looping clip goes on from the other end,
    and another clip stops. -/
def stepTime (clip : Clip α) (time ticks : α) (looping : Bool) : α :=
  let time := time + ticks
  if clip.duration < time then (if looping then 0 else clip.duration)
  else if time < 0 then (if looping then clip.duration else 0)
  else time

end Clip
end Armature
