import Armature.Transform

/-!
Keyframe tracks: a value that changes over time, given at some times and interpolated between them.
-/

namespace Armature

/-- What can be interpolated, with scalars in `α` for the time. -/
class Interpolable (α : outParam Type) (β : Type) where
  /-- The value of a track without keys. -/
  identity : β
  /-- Interpolation from the first value at `0` to the second at `1`. -/
  interpolate : β → β → α → β

instance {α : Type} [Scalar α] : Interpolable α (Vec3 α) where
  identity := Vec3.zero
  interpolate := Vec3.lerp

/-- Rotations turn along an arc. The result is normalized again, since keys need not have length one. -/
instance {α : Type} [Scalar α] : Interpolable α (Quat α) where
  identity := Quat.identity
  interpolate a b t := (a.slerp b t).normalize

/-- A value at a time, in ticks of the clip. -/
structure Keyframe (α β : Type) where
  time : α
  value : β

/-- A track: its keys in ascending order of their times. -/
structure Track (α β : Type) where
  keys : List (Keyframe α β)
deriving Inhabited

namespace Track

variable {α β : Type} [Scalar α]

def empty : Track α β := ⟨[]⟩

/-- The track with the given keys, which are put in order; keys of one time keep their order. -/
def ofKeys (keys : List (Keyframe α β)) : Track α β :=
  ⟨keys.mergeSort fun a b => Scalar.totalLe a.time b.time⟩

/-- The track with the given values at the given times, up to the end of the shorter list. -/
def ofTimesAndValues (times : List α) (values : List β) : Track α β :=
  ofKeys (List.zipWith Keyframe.mk times values)

/-- The track that always has one value. -/
def constant (value : β) : Track α β := ⟨[⟨0, value⟩]⟩

def isEmpty (track : Track α β) : Bool := track.keys.isEmpty

/-- The time of the last key; zero without keys. -/
def endTime (track : Track α β) : α :=
  match track.keys.getLast? with
  | some key => key.time
  | none => 0

/-- The first two neighbouring keys of which the second is not before `time`. -/
def segment? (time : α) : List (Keyframe α β) → Option (Keyframe α β × Keyframe α β)
  | a :: b :: rest => if time ≤ b.time then some (a, b) else segment? time (b :: rest)
  | _ => none

/-- How far `time` is on the way from `start` to `stop`, in parts of the whole. A time before the start
    counts as the start, and so does every time if there is no way to go. -/
def progress (start stop time : α) : α :=
  let span := stop - start
  if span ≤ 0 then 0 else Scalar.max ((time - start) / span) 0

/-- The value at a time. Before the first key it is the first value, after the last key the last one, and
    between two keys it is interpolated. -/
def sample [Interpolable α β] (track : Track α β) (time : α) : β :=
  match track.keys with
  | [] => Interpolable.identity
  | first :: rest =>
    match segment? time (first :: rest) with
    | some (a, b) => Interpolable.interpolate a.value b.value (progress a.time b.time time)
    | none => ((first :: rest).getLast (List.cons_ne_nil _ _)).value

/-- The keys that a time lies between are keys of the track, and it is not after the second one. -/
theorem of_segment?_eq_some {time : α} {keys : List (Keyframe α β)} {a b : Keyframe α β}
    (h : segment? time keys = some (a, b)) : a ∈ keys ∧ b ∈ keys ∧ time ≤ b.time := by
  fun_induction segment? time keys with
  | case1 first second rest hle =>
    obtain ⟨rfl, rfl⟩ := Prod.mk.inj (Option.some.inj h)
    exact ⟨by simp, by simp, hle⟩
  | case2 first second rest hle ih =>
    obtain ⟨ha, hb, htime⟩ := ih h
    exact ⟨List.mem_cons_of_mem _ ha, List.mem_cons_of_mem _ hb, htime⟩
  | case3 => cases h

variable [Interpolable α β] {track : Track α β} {time : α}

/-- Between two keys that are found for a time the value is interpolated. -/
theorem sample_of_segment?_eq_some {a b : Keyframe α β} (h : segment? time track.keys = some (a, b)) :
    track.sample time = Interpolable.interpolate a.value b.value (progress a.time b.time time) := by
  unfold sample
  cases hkeys : track.keys with
  | nil =>
    rw [hkeys] at h
    cases h
  | cons first rest =>
    rw [hkeys] at h
    simp only [h]

/-- If no two keys are found for a time, the value is the last one. -/
theorem sample_of_segment?_eq_none {last : Keyframe α β} (h : segment? time track.keys = none)
    (hlast : track.keys.getLast? = some last) : track.sample time = last.value := by
  unfold sample
  cases hkeys : track.keys with
  | nil =>
    rw [hkeys] at hlast
    cases hlast
  | cons first rest =>
    rw [hkeys] at h hlast
    rw [List.getLast?_eq_some_getLast (List.cons_ne_nil first rest)] at hlast
    simp only [h, Option.some.inj hlast]

end Track
end Armature
