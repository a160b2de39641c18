import Armature.Proofs.SampledTimes

/-!
# Positions between keys

A track with two keys or more is interpolated between the first two neighbouring keys that a position does not lie
behind; there are such keys exactly if the position is not after the last key (`Track.isSome_segment?_iff`). A clip lasts
until its latest key (`Clip.duration_ofTracks`), but its tracks may end earlier than the clip. So every position inside
the duration lies between keys of all tracks exactly if all tracks end with the clip (`Clip.covers_iff_lasts`).
-/

namespace Armature

namespace Binary32

variable {x y z : Binary32}

theorem le_refl (h : x.isNaN = false) : x ≤ x := le_iff.2 ⟨h, h, Int.le_refl _⟩

theorem le_trans (hxy : x ≤ y) (hyz : y ≤ z) : x ≤ z := by
  obtain ⟨hx, -, hxy⟩ := le_iff.1 hxy
  obtain ⟨-, hz, hyz⟩ := le_iff.1 hyz
  exact le_iff.2 ⟨hx, hz, Int.le_trans hxy hyz⟩

theorem le_of_not_lt (hx : x.isNaN = false) (hy : y.isNaN = false) (h : ¬ y < x) : x ≤ y := by
  rw [lt_iff] at h
  exact le_iff.2 ⟨hx, hy, Int.not_lt.1 fun hlt => h ⟨hy, hx, hlt⟩⟩

theorem le_of_lt (h : x < y) : x ≤ y := by
  obtain ⟨hx, hy, hlt⟩ := lt_iff.1 h
  exact le_iff.2 ⟨hx, hy, Int.le_of_lt hlt⟩

/-- The order that keys are sorted by is that of numbers. -/
theorem le_of_totalLe (hx : x.isNaN = false) (hy : y.isNaN = false) (h : Scalar.totalLe x y) : x ≤ y := by
  refine le_iff.2 ⟨hx, hy, ?_⟩
  have h : x.totalKey ≤ y.totalKey := by simpa [Scalar.totalLe] using h
  unfold totalKey at h
  unfold key
  grind

theorem isNaN_max (hx : x.isNaN = false) (hy : y.isNaN = false) : (Scalar.max x y).isNaN = false := by
  unfold Scalar.max
  grind

/-- The larger of two numbers. -/
theorem max_eq_ite (hy : y.isNaN = false) : Scalar.max x y = if y < x then x else y := by
  have hself : (y == y) = true := by
    change (!y.isNaN && !y.isNaN && y.key == y.key) = true
    simp [hy]
  rw [Scalar.max, hself, if_pos rfl]

theorem le_max_left (hx : x.isNaN = false) (hy : y.isNaN = false) : x ≤ Scalar.max x y := by
  rw [max_eq_ite hy]
  split
  · exact le_refl hx
  · next hlt => exact le_of_not_lt hx hy hlt

theorem le_max_right (hy : y.isNaN = false) : y ≤ Scalar.max x y := by
  rw [max_eq_ite hy]
  split
  · next hlt => exact le_of_lt hlt
  · exact le_refl hy

end Binary32

/-! ## Tracks -/

namespace Track

variable {β : Type}

/-- The keys are in ascending order, and their times are numbers. -/
structure Timed (track : Track Binary32 β) : Prop where
  ascending : track.keys.Pairwise fun a b => Scalar.totalLe a.time b.time
  isNaN : ∀ key ∈ track.keys, key.time.isNaN = false

theorem timed_empty : (empty : Track Binary32 β).Timed := ⟨.nil, by simp [empty]⟩

/-- Keys are put in order, whichever way they are given. -/
theorem timed_ofKeys {keys : List (Keyframe Binary32 β)} (h : ∀ key ∈ keys, key.time.isNaN = false) :
    (ofKeys keys).Timed where
  ascending := by
    refine List.pairwise_mergeSort ?_ ?_ keys
    · intro a b c hab hbc
      simp only [Scalar.totalLe, decide_eq_true_eq] at hab hbc ⊢
      omega
    · intro a b
      simp only [Scalar.totalLe, Bool.or_eq_true, decide_eq_true_eq]
      omega
  isNaN key hkey := h key (List.mem_mergeSort.1 hkey)

theorem timed_ofTimesAndValues {times : List Binary32} (h : ∀ time ∈ times, time.isNaN = false) (values : List β) :
    (ofTimesAndValues times values).Timed := by
  refine timed_ofKeys fun key hkey => ?_
  obtain ⟨i, hi, rfl⟩ := List.getElem_of_mem hkey
  simp only [List.getElem_zipWith]
  exact h _ (List.getElem_mem _)

variable {track : Track Binary32 β} {time : Binary32}

theorem Timed.isNaN_endTime (h : track.Timed) : track.endTime.isNaN = false := by
  unfold endTime
  split
  · next key hkey => exact h.isNaN key (List.mem_of_getLast? hkey)
  · exact Binary32.isNaN_zero

/-- The last key comes before no other one. -/
theorem Timed.le_endTime (h : track.Timed) {key : Keyframe Binary32 β} (hkey : key ∈ track.keys) :
    key.time ≤ track.endTime := by
  obtain ⟨before, last, hkeys⟩ : ∃ before last, track.keys = before ++ [last] :=
    ⟨_, _, (List.dropLast_concat_getLast (List.ne_nil_of_mem hkey)).symm⟩
  have hend : track.endTime = last.time := by simp [endTime, hkeys]
  have hlast : last.time.isNaN = false := h.isNaN last (by simp [hkeys])
  rw [hend]
  have hmem : key ∈ before ∨ key = last := by simpa [hkeys] using hkey
  rcases hmem with hbefore | rfl
  · have hascending := h.ascending
    rw [hkeys, List.pairwise_append] at hascending
    exact Binary32.le_of_totalLe (h.isNaN key hkey) hlast (hascending.2.2 key hbefore last (by simp))
  · exact Binary32.le_refl hlast

theorem isSome_segment? {keys : List (Keyframe Binary32 β)} {last : Keyframe Binary32 β} (hlength : 2 ≤ keys.length)
    (hlast : keys.getLast? = some last) (htime : time ≤ last.time) : (segment? time keys).isSome := by
  fun_induction segment? time keys with
  | case1 => rfl
  | case2 first second rest hle ih =>
    rw [List.getLast?_cons_cons] at hlast
    cases rest with
    | nil =>
      obtain rfl := Option.some.inj hlast
      exact absurd htime hle
    | cons third rest => exact ih (by simp) hlast
  | case3 keys hshort =>
    rcases keys with _ | ⟨a, _ | ⟨b, rest⟩⟩
    · simp at hlength
    · simp at hlength
    · exact absurd rfl (hshort a b rest)

/-- There are keys for a position exactly if it is not after the last one. -/
theorem Timed.isSome_segment?_iff (h : track.Timed) (hlength : 2 ≤ track.keys.length) :
    (segment? time track.keys).isSome ↔ time ≤ track.endTime := by
  constructor
  · intro hsome
    obtain ⟨⟨a, b⟩, hsegment⟩ := Option.isSome_iff_exists.1 hsome
    obtain ⟨-, hb, htime⟩ := of_segment?_eq_some hsegment
    exact Binary32.le_trans htime (h.le_endTime hb)
  · intro htime
    have hne : track.keys ≠ [] := by
      rintro hnil
      simp [hnil] at hlength
    have hlast := List.getLast?_eq_some_getLast hne
    exact isSome_segment? hlength hlast (by simpa [endTime, hlast] using htime)

/-- Behind the last key a track keeps its last value. -/
theorem Timed.sample_of_endTime_lt [Interpolable Binary32 β] (h : track.Timed) (hlength : 2 ≤ track.keys.length)
    (htime : ¬ time ≤ track.endTime) : (track.keys.getLast?.map (·.value)) = some (track.sample time) := by
  have hsegment : segment? time track.keys = none := by
    rw [← Option.not_isSome_iff_eq_none, h.isSome_segment?_iff hlength]
    exact htime
  have hne : track.keys ≠ [] := by
    rintro hnil
    simp [hnil] at hlength
  have hlast := List.getLast?_eq_some_getLast hne
  rw [hlast, Option.map_some, sample_of_segment?_eq_none hsegment hlast]

/-- There are two neighbouring keys for a position, if there are neighbouring keys at all. -/
def Covers (track : Track Binary32 β) (time : Binary32) : Prop :=
  2 ≤ track.keys.length → (segment? time track.keys).isSome

/-- The keys do not end before a position, if there are two keys or more. -/
def Lasts (track : Track Binary32 β) (time : Binary32) : Prop :=
  2 ≤ track.keys.length → time ≤ track.endTime

theorem Lasts.mono {later : Binary32} (h : track.Lasts later) (htime : time ≤ later) : track.Lasts time :=
  fun hlength => Binary32.le_trans htime (h hlength)

theorem Timed.covers_iff (h : track.Timed) : track.Covers time ↔ track.Lasts time :=
  forall_congr' fun hlength => h.isSome_segment?_iff hlength

end Track

/-! ## Clips -/

namespace BoneTrack

/-- Something holds of all tracks of a bone. -/
structure All (p : ∀ {β : Type} [Interpolable Binary32 β], Track Binary32 β → Prop) (tracks : BoneTrack Binary32) :
    Prop where
  translations : p tracks.translations
  rotations : p tracks.rotations
  scales : p tracks.scales

theorem All.map₂ {p q r : ∀ {β : Type} [Interpolable Binary32 β], Track Binary32 β → Prop}
    {tracks : BoneTrack Binary32} (hp : tracks.All p) (hq : tracks.All q)
    (hr : ∀ {β : Type} [Interpolable Binary32 β] {track : Track Binary32 β}, p track → q track → r track) :
    tracks.All r :=
  ⟨hr hp.translations hq.translations, hr hp.rotations hq.rotations, hr hp.scales hq.scales⟩

variable {tracks : BoneTrack Binary32}

theorem isNaN_endTime (h : tracks.All Track.Timed) : tracks.endTime.isNaN = false :=
  Binary32.isNaN_max (Binary32.isNaN_max h.translations.isNaN_endTime h.rotations.isNaN_endTime)
    h.scales.isNaN_endTime

/-- No track of a bone ends later than the bone. -/
theorem endTime_le (h : tracks.All Track.Timed) : tracks.All fun track => track.endTime ≤ tracks.endTime := by
  have hinner := Binary32.isNaN_max h.translations.isNaN_endTime h.rotations.isNaN_endTime
  have houter := Binary32.le_max_left hinner h.scales.isNaN_endTime
  exact {
    translations :=
      Binary32.le_trans (Binary32.le_max_left h.translations.isNaN_endTime h.rotations.isNaN_endTime) houter
    rotations := Binary32.le_trans (Binary32.le_max_right h.rotations.isNaN_endTime) houter
    scales := Binary32.le_max_right h.scales.isNaN_endTime }

end BoneTrack

namespace Clip

variable {name : String} {ticksPerSecond : Binary32} {entries : List (String × BoneTrack Binary32)}

theorem mem_of_getElem?_bones {bone : String} {tracks : BoneTrack Binary32}
    (h : (ofTracks name ticksPerSecond entries).bones[bone]? = some tracks) : (bone, tracks) ∈ entries := by
  have h : (Std.ExtTreeMap.ofList entries)[bone]? = some tracks := h
  rw [Std.ExtTreeMap.ofList_eq_insertMany_empty, Std.ExtTreeMap.getElem?_insertMany_list] at h
  simp only [Std.ExtTreeMap.getElem?_empty, Option.or_none, List.findSomeRev?_eq_findSome?_reverse] at h
  obtain ⟨⟨other, found⟩, hmem, hfound⟩ := List.exists_of_findSome?_eq_some h
  grind

/-- The latest of some times is a number if all of them are, and comes before none of them. -/
theorem foldl_max {ι : Type} (time : ι → Binary32) {xs : List ι} (hxs : ∀ x ∈ xs, (time x).isNaN = false)
    {start : Binary32} (hstart : start.isNaN = false) :
    start ≤ xs.foldl (fun latest x => Scalar.max latest (time x)) start ∧
      ∀ x ∈ xs, time x ≤ xs.foldl (fun latest x => Scalar.max latest (time x)) start := by
  induction xs generalizing start with
  | nil => exact ⟨Binary32.le_refl hstart, by simp⟩
  | cons first rest ih =>
    obtain ⟨hfirst, hrest⟩ := List.forall_mem_cons.1 hxs
    obtain ⟨hle, hall⟩ := ih hrest (Binary32.isNaN_max hstart hfirst)
    refine ⟨Binary32.le_trans (Binary32.le_max_left hstart hfirst) hle, List.forall_mem_cons.2 ⟨?_, hall⟩⟩
    exact Binary32.le_trans (Binary32.le_max_right hfirst) hle

theorem duration_eq_foldl : (ofTracks name ticksPerSecond entries).duration =
    (ofTracks name ticksPerSecond entries).bones.toList.foldl
      (fun latest entry => Scalar.max latest entry.2.endTime) 0 :=
  Std.ExtTreeMap.foldl_eq_foldl_toList (t := (ofTracks name ticksPerSecond entries).bones)

/-- A clip whose keys are all at times that are numbers lasts at least until each of them. -/
theorem duration_ofTracks (h : ∀ entry ∈ entries, entry.2.All Track.Timed) :
    let clip := ofTracks name ticksPerSecond entries
    0 ≤ clip.duration ∧
      ∀ (bone : String) (tracks : BoneTrack Binary32), clip.bones[bone]? = some tracks →
        tracks.endTime ≤ clip.duration := by
  intro clip
  have hnumbers : ∀ entry ∈ clip.bones.toList, entry.2.endTime.isNaN = false := by
    intro entry hentry
    rw [Std.ExtTreeMap.mem_toList_iff_getElem?_eq_some] at hentry
    exact BoneTrack.isNaN_endTime (h _ (mem_of_getElem?_bones hentry))
  obtain ⟨hzero, hall⟩ :=
    foldl_max (fun entry : String × BoneTrack Binary32 => entry.2.endTime) hnumbers Binary32.isNaN_zero
  rw [duration_eq_foldl]
  refine ⟨hzero, fun bone tracks hbone => ?_⟩
  exact hall (bone, tracks) (Std.ExtTreeMap.mem_toList_iff_getElem?_eq_some.2 hbone)

/-- A bone of a tree is moved by some tracks of a clip. -/
def Animates (clip : Clip Binary32) (tree : BoneTree Binary32) (tracks : BoneTrack Binary32) : Prop :=
  ∃ bone ∈ tree.toList, clip.bones[bone.name]? = some tracks

/-- Inside the duration of a clip all positions lie between keys of all tracks that are sampled exactly if all these
    tracks end with the clip, as far as they have two keys. At a position behind its last key a track has the last
    value. -/
theorem covers_iff_lasts (hentries : ∀ entry ∈ entries, entry.2.All Track.Timed) (tree : BoneTree Binary32) :
    let clip := ofTracks name ticksPerSecond entries
    ((∀ tracks, clip.Animates tree tracks → ∀ time, 0 ≤ time → time ≤ clip.duration → tracks.All (·.Covers time)) ↔
      ∀ tracks, clip.Animates tree tracks → tracks.All (·.Lasts clip.duration)) ∧
    ∀ tracks, clip.Animates tree tracks → tracks.All fun track =>
      track.endTime ≤ clip.duration ∧
      ∀ time, 0 ≤ time → time ≤ clip.duration →
        (track.Covers time ↔ track.Lasts time) ∧
        (¬ track.Covers time → track.keys.getLast?.map (·.value) = some (track.sample time)) := by
  intro clip
  obtain ⟨hzero, hend⟩ : 0 ≤ clip.duration ∧
      ∀ (bone : String) (tracks : BoneTrack Binary32), clip.bones[bone]? = some tracks →
        tracks.endTime ≤ clip.duration :=
    duration_ofTracks hentries
  have hnumber := (Binary32.le_iff.1 hzero).2.1
  have htimed : ∀ tracks, clip.Animates tree tracks → tracks.All Track.Timed := by
    rintro tracks ⟨bone, -, hbone⟩
    exact hentries _ (mem_of_getElem?_bones hbone)
  refine ⟨⟨fun hcovers tracks htracks => ?_, fun hlasts tracks htracks time _ htime => ?_⟩, fun tracks htracks => ?_⟩
  · -- The end of the clip is one of its positions.
    have hcovers := hcovers tracks htracks clip.duration hzero (Binary32.le_refl hnumber)
    exact (htimed tracks htracks).map₂ hcovers fun htimed hcovers => htimed.covers_iff.1 hcovers
  · exact (htimed tracks htracks).map₂ (hlasts tracks htracks) fun htimed hlasts =>
      htimed.covers_iff.2 (hlasts.mono htime)
  · have hclip : tracks.endTime ≤ clip.duration := by
      obtain ⟨bone, -, hbone⟩ := htracks
      exact hend bone.name tracks hbone
    have htimed := htimed tracks htracks
    refine htimed.map₂ (BoneTrack.endTime_le htimed) fun {_ _ track} htimed hle => ?_
    refine ⟨Binary32.le_trans hle hclip, fun time _ _ => ⟨htimed.covers_iff, fun hnot => ?_⟩⟩
    obtain ⟨hlength, hnone⟩ := Classical.not_imp.1 hnot
    exact htimed.sample_of_endTime_lt hlength fun hle => hnone ((htimed.isSome_segment?_iff hlength).2 hle)

/-! ### Tracks of different lengths -/

/-- A bone that moves for one tick and grows for ten. -/
def limpTracks : BoneTrack Binary32 where
  translations := .ofTimesAndValues [0, 1] [Vec3.zero, ⟨1, 0, 0⟩]
  rotations := .empty
  scales := .ofTimesAndValues [0, 10.0] [⟨1, 1, 1⟩, ⟨2.0, 2.0, 2.0⟩]

theorem timed_limpTracks : limpTracks.All Track.Timed where
  translations := Track.timed_ofTimesAndValues (by decide) _
  rotations := Track.timed_empty
  scales := Track.timed_ofTimesAndValues (by decide) _

def limpEntries : List (String × BoneTrack Binary32) := [("root", limpTracks)]

/-- The clip of these tracks. -/
def limp : Clip Binary32 := ofTracks "limp" 1 limpEntries

theorem timed_limpEntries : ∀ entry ∈ limpEntries, entry.2.All Track.Timed := by
  simpa [limpEntries] using timed_limpTracks

def lone : BoneTree Binary32 := ⟨⟨"root", Mat4.identity⟩, .nil⟩

theorem animates_limp : limp.Animates lone limpTracks := by
  refine ⟨⟨"root", Mat4.identity⟩, by simp [lone, BoneTree.toList], ?_⟩
  change (Std.ExtTreeMap.ofList [("root", limpTracks)])["root"]? = some limpTracks
  rw [Std.ExtTreeMap.ofList_singleton, Std.ExtTreeMap.getElem?_insert_self]

theorem translations_limpTracks : limpTracks.translations.keys = [⟨0, Vec3.zero⟩, ⟨1, ⟨1, 0, 0⟩⟩] :=
  List.mergeSort_of_pairwise (by decide)

theorem scales_limpTracks : limpTracks.scales.keys = [⟨0, ⟨1, 1, 1⟩⟩, ⟨10.0, ⟨2.0, 2.0, 2.0⟩⟩] :=
  List.mergeSort_of_pairwise (by decide)

theorem duration_limp : limp.duration = 10.0 := by
  have htoList : limp.bones.toList = [("root", limpTracks)] := rfl
  have hend : limpTracks.endTime = 10.0 := by
    rw [BoneTrack.endTime, Track.endTime, Track.endTime, Track.endTime, translations_limpTracks, scales_limpTracks]
    decide
  rw [limp] at htoList ⊢
  rw [duration_eq_foldl, htoList, List.foldl_cons, List.foldl_nil, hend]
  decide

/-- A player of the clip after five ticks. -/
def limping (skeleton : Skeleton Binary32) : Player Binary32 :=
  ((Player.ofClip (some ⟨1, limp⟩)).update skeleton .default 5.0).2

theorem settle_limping (skeleton : Skeleton Binary32) :
    (limping skeleton).playback.settle = ⟨5.0, some ⟨1, limp⟩⟩ := by
  have hstart : limp.isValidTime 0 = true := by
    rw [isValidTime, duration_limp]
    decide
  have hlater : limp.isValidTime 5.0 = true := by
    rw [isValidTime, duration_limp]
    decide
  have hstep : limp.stepTime 0 (Settings.ticksPerSecond .default 1 * 5.0 * 1) true = 5.0 := by
    rw [stepTime, duration_limp]
    decide
  have hplayback : (limping skeleton).playback = ⟨5.0, some ⟨1, limp⟩⟩ := by
    simp only [limping, Player.update, Player.ofClip, Playback.settle, hstart, if_true, Playback.advance]
    exact congrArg (Playback.mk · (some ⟨1, limp⟩)) hstep
  rw [hplayback, Playback.settle]
  simp only [hlater, if_true]

/-- After five ticks a player of the clip is behind the keys of one track, and still inside the clip. -/
theorem not_covers_limp :
    (∀ entry ∈ limpEntries, entry.2.All Track.Timed) ∧ limp.Animates lone limpTracks ∧
    (∀ skeleton, (limping skeleton).playback.settle = ⟨5.0, some ⟨1, limp⟩⟩) ∧
    (0 : Binary32) ≤ 5.0 ∧ 5.0 ≤ limp.duration ∧
    2 ≤ limpTracks.translations.keys.length ∧ Track.segment? 5.0 limpTracks.translations.keys = none := by
  rw [duration_limp, translations_limpTracks]
  exact ⟨timed_limpEntries, animates_limp, settle_limping, by decide, by decide, by decide, by decide⟩

/-- Half way through the clip the bone has stopped moving. -/
theorem covers_iff_lasts_limp :
    (∀ entry ∈ limpEntries, entry.2.All Track.Timed) ∧
    limpTracks.translations.keys.getLast?.map (·.value) = some (limpTracks.translations.sample 5.0) := by
  obtain ⟨-, hlasting⟩ := covers_iff_lasts timed_limpEntries lone
  obtain ⟨-, hcovers⟩ := (hlasting limpTracks animates_limp).translations
  have hinside : (5.0 : Binary32) ≤ limp.duration := by
    rw [duration_limp]
    decide
  obtain ⟨-, hlast⟩ := hcovers 5.0 (by decide) hinside
  refine ⟨timed_limpEntries, hlast ?_⟩
  rw [Track.Covers, translations_limpTracks]
  decide

end Clip
end Armature
