import Armature.Geometry.Mat4

/-!
Settings shared by graphs, clip players and stages.
-/

namespace Armature

/-- The settings of playback. -/
structure Settings (α : Type) where
  /-- The playback rate of clips that do not give one. -/
  defaultTicksPerSecond : α
  /-- The number of matrices that a palette has room for from the start. -/
  paletteCapacity : Nat
  /-- What the root of a skeleton is placed below. -/
  rootTransform : Mat4 α

namespace Settings

variable {α : Type} [Scalar α]

/-- The settings that hold unless others are given. -/
def default : Settings α := ⟨25.0, 100, Mat4.identity⟩

instance : Inhabited (Settings α) := ⟨default⟩

instance : BEq (Settings α) where
  beq a b := a.defaultTicksPerSecond == b.defaultTicksPerSecond &&
    a.paletteCapacity == b.paletteCapacity && a.rootTransform == b.rootTransform

/-- The playback rate of a clip: its own if it is positive, else the default. -/
def ticksPerSecond (settings : Settings α) (clipRate : α) : α :=
  if 0 < clipRate then clipRate else settings.defaultTicksPerSecond

end Settings
end Armature
