import Armature.Json.Fields
import Armature.Json.Printer
import Armature.Json.Reader
import Armature.Settings
import Armature.Transform

/-!
The JSON form of vectors, rotations, matrices, transforms and settings.

Vectors, rotations and matrices are flat arrays of their components, matrices by columns.
-/

namespace Armature

def Vec3.ofJson? (v : Json) : Option (Vec3 Binary32) := do
  match ← v.asList? Json.asFloat? with
  | [x, y, z] => return ⟨x, y, z⟩
  | _ => none

def Vec3.toJson (v : Vec3 Binary32) : Json := .array ([v.x, v.y, v.z].map Json.ofFloat)

def Quat.ofJson? (v : Json) : Option (Quat Binary32) := do
  match ← v.asList? Json.asFloat? with
  | [x, y, z, w] => return ⟨x, y, z, w⟩
  | _ => none

def Quat.toJson (q : Quat Binary32) : Json := .array ([q.x, q.y, q.z, q.w].map Json.ofFloat)

def Mat4.ofJson? (v : Json) : Option (Mat4 Binary32) := do
  match ← v.asList? Json.asFloat? with
  | [a, b, c, d, e, f, g, h, i, j, k, l, m, n, o, p] =>
    return ⟨⟨a, b, c, d⟩, ⟨e, f, g, h⟩, ⟨i, j, k, l⟩, ⟨m, n, o, p⟩⟩
  | _ => none

/-- Reads a transform, all fields of which must be there. -/
def Transform.ofJson? (v : Json) : Option (Transform Binary32) := do
  match ← v.fields? ["translation", "rotation", "scale"] with
  | [translation, rotation, scale] =>
    return {
      translation := ← Json.required Vec3.ofJson? translation
      rotation := ← Json.required Quat.ofJson? rotation
      scale := ← Json.required Vec3.ofJson? scale }
  | _ => none

def Transform.toJson (t : Transform Binary32) : Json :=
  Json.ofMembers [
    ("translation", t.translation.toJson),
    ("rotation", t.rotation.toJson),
    ("scale", t.scale.toJson)]

/-- Reads settings. Fields that are not there have their defaults. -/
def Settings.ofJson? (v : Json) : Option (Settings Binary32) := do
  match ← v.fields? ["default_ticks_per_second", "palette_capacity", "root_transform"] with
  | [rate, capacity, root] =>
    return {
      defaultTicksPerSecond :=
        ← Json.withDefault Json.asFloat? (default : Settings Binary32).defaultTicksPerSecond rate
      paletteCapacity :=
        ← Json.withDefault Json.asWord? (default : Settings Binary32).paletteCapacity capacity
      rootTransform := ← Json.withDefault Mat4.ofJson? (default : Settings Binary32).rootTransform root }
  | _ => none

end Armature
