import Armature.Proofs.Interpolation

/-!
# Sampling between keys

In exact arithmetic a track is a function of its keys in pieces (`Track.sample_ofKeys`). Between the first key and the
last one a position is surrounded by two neighbours, the last key before it and the first key that is not before it
(`Track.Around`), and the value there is interpolated from theirs; so at a time that several keys have, it is the value
of the first of them. No position is surrounded by neighbours of one time, which have no way between them.
-/

namespace Armature

/-- The point on the line through two vectors that is at `0` the first and at `1` the second. -/
def Vec3.onLine (a b : Vec3 ℝ) (t : ℝ) : Vec3 ℝ := zipWith (fun p q => p + (q - p) * t) a b

theorem Vec3.lerp_eq_onLine (a b : Vec3 ℝ) (t : ℝ) : a.lerp b t = a.onLine b t := by
  have hscalar : ∀ p q : ℝ, Scalar.lerp p q t = p + (q - p) * t := by
    intro p q
    unfold Scalar.lerp
    ring
  simp only [lerp, onLine, hscalar]

namespace Track

/-! ## The way between two keys -/

section Progress

variable {start stop time : ℝ}

/-- A position that is not after the start is at the start, whether or not there is a way to go. -/
theorem progress_of_le (h : time ≤ start) : progress start stop time = 0 := by
  simp only [progress]
  split
  · rfl
  · next hspan =>
    have hquotient : (time - start) / (stop - start) ≤ 0 :=
      div_nonpos_of_nonpos_of_nonneg (sub_nonpos.2 h) (not_le.1 hspan).le
    have hself : ((0 : ℝ) == 0) = true := decide_eq_true rfl
    rw [Scalar.max, if_neg (not_lt.2 hquotient), if_pos hself]

theorem progress_of_lt (hstart : start < time) (hstop : time ≤ stop) :
    progress start stop time = (time - start) / (stop - start) := by
  have hspan : 0 < stop - start := sub_pos.2 (hstart.trans_le hstop)
  have hquotient : 0 < (time - start) / (stop - start) := div_pos (sub_pos.2 hstart) hspan
  rw [progress, if_neg (not_le.2 hspan), Scalar.max, if_pos hquotient]

end Progress

/-! ## Keys in order -/

section Keys

variable {β : Type} {keys given : List (Keyframe ℝ β)} {first last a b : Keyframe ℝ β} {time : ℝ}

/-- The keys before a position. -/
noncomputable def past (time : ℝ) (keys : List (Keyframe ℝ β)) : List (Keyframe ℝ β) :=
  keys.filter fun key => key.time < time

/-- The keys that are not before a position. -/
noncomputable def ahead (time : ℝ) (keys : List (Keyframe ℝ β)) : List (Keyframe ℝ β) :=
  keys.filter fun key => time ≤ key.time

/-- The neighbours that surround a position: the last key before it, and the first key that is not before it. -/
structure Around (keys : List (Keyframe ℝ β)) (time : ℝ) (a b : Keyframe ℝ β) : Prop where
  getLast?_past : (past time keys).getLast? = some a
  head?_ahead : (ahead time keys).head? = some b
  adjacent : [a, b] <:+: keys

/-- The given keys in ascending order of their times, those of one time in the order in which they are given. -/
structure InOrder (keys given : List (Keyframe ℝ β)) : Prop where
  perm : keys.Perm given
  ascending : keys.Pairwise fun a b => a.time ≤ b.time
  stable : ∀ time, keys.filter (fun key => key.time = time) = given.filter fun key => key.time = time

theorem time_lt_of_mem_past (h : a ∈ past time keys) : a.time < time := of_decide_eq_true (List.mem_filter.1 h).2

theorem le_time_of_mem_ahead (h : a ∈ ahead time keys) : time ≤ a.time := of_decide_eq_true (List.mem_filter.1 h).2

theorem Around.lt (h : Around keys time a b) : a.time < time :=
  time_lt_of_mem_past (List.mem_of_getLast? h.getLast?_past)

theorem Around.le (h : Around keys time a b) : time ≤ b.time :=
  le_time_of_mem_ahead (List.mem_of_head? h.head?_ahead)

theorem Around.span_pos (h : Around keys time a b) : 0 < b.time - a.time := sub_pos.2 (h.lt.trans_le h.le)

theorem head?_ahead_of_le (hfirst : keys.head? = some first) (htime : time ≤ first.time) :
    (ahead time keys).head? = some first := by
  obtain ⟨rest, rfl⟩ := List.head?_eq_some_iff.1 hfirst
  have hahead : ahead time (first :: rest) = first :: ahead time rest :=
    List.filter_cons_of_pos (decide_eq_true htime)
  rw [hahead, List.head?_cons]

/-- Behind all keys, no neighbours are found. -/
theorem segment?_eq_none (h : ∀ key ∈ keys, key.time < time) : segment? time keys = none := by
  fun_induction segment? time keys with
  | case1 first second rest hle => exact absurd hle (not_le.2 (h second (by simp)))
  | case2 first second rest hle ih => exact ih fun key hkey => h key (List.mem_cons_of_mem _ hkey)
  | case3 => rfl

/-- Keys before a position are passed over. -/
theorem segment?_append {before : List (Keyframe ℝ β)} (hbefore : ∀ key ∈ before, key.time < time)
    (ha : a.time < time) (hb : time ≤ b.time) (after : List (Keyframe ℝ β)) :
    segment? time (before ++ a :: b :: after) = some (a, b) := by
  induction before with
  | nil => exact if_pos hb
  | cons first rest ih =>
    obtain ⟨-, hrest⟩ := List.forall_mem_cons.1 hbefore
    -- the key after the first one is before the position too
    have hskip : segment? time (first :: (rest ++ a :: b :: after)) = segment? time (rest ++ a :: b :: after) := by
      cases rest with
      | nil => exact if_neg (not_le.2 ha)
      | cons second rest => exact if_neg (not_le.2 (List.forall_mem_cons.1 hrest).1)
    exact hskip.trans (ih hrest)

section Ascending

variable (h : keys.Pairwise fun a b => a.time ≤ b.time)

include h

/-- A position divides the keys in two. -/
theorem past_append_ahead (time : ℝ) : past time keys ++ ahead time keys = keys := by
  induction keys with
  | nil => rfl
  | cons first rest ih =>
    obtain ⟨hfirst, hrest⟩ := List.pairwise_cons.1 h
    by_cases htime : first.time < time
    · have hpast : past time (first :: rest) = first :: past time rest :=
        List.filter_cons_of_pos (decide_eq_true htime)
      have hahead : ahead time (first :: rest) = ahead time rest :=
        List.filter_cons_of_neg (by simpa using htime)
      rw [hpast, hahead, List.cons_append, ih hrest]
    · -- all keys come after the first one, which is not before the position
      have hle : ∀ key ∈ first :: rest, time ≤ key.time := by
        have hfirst_le := not_lt.1 htime
        exact List.forall_mem_cons.2 ⟨hfirst_le, fun key hkey => hfirst_le.trans (hfirst key hkey)⟩
      have hpast : past time (first :: rest) = [] := by
        refine List.filter_eq_nil_iff.2 fun key hkey => ?_
        simpa using hle key hkey
      have hahead : ahead time (first :: rest) = first :: rest := by
        refine List.filter_eq_self.2 fun key hkey => ?_
        simpa using hle key hkey
      rw [hpast, hahead, List.nil_append]

/-- Between the first key and the last one there are neighbours that surround a position. -/
theorem exists_around (hfirst : keys.head? = some first) (hlast : keys.getLast? = some last)
    (hfirst_lt : first.time < time) (hle_last : time ≤ last.time) : ∃ a b, Around keys time a b := by
  have hpast : past time keys ≠ [] :=
    List.ne_nil_of_mem (List.mem_filter.2 ⟨List.mem_of_head? hfirst, decide_eq_true hfirst_lt⟩)
  have hahead : ahead time keys ≠ [] :=
    List.ne_nil_of_mem (List.mem_filter.2 ⟨List.mem_of_getLast? hlast, decide_eq_true hle_last⟩)
  obtain ⟨a, ha⟩ := Option.isSome_iff_exists.1 (List.getLast?_isSome.2 hpast)
  obtain ⟨b, hb⟩ := Option.isSome_iff_exists.1 (List.isSome_head?.2 hahead)
  obtain ⟨before, hbefore⟩ := List.getLast?_eq_some_iff.1 ha
  obtain ⟨after, hafter⟩ := List.head?_eq_some_iff.1 hb
  refine ⟨a, b, ha, hb, before, after, ?_⟩
  rw [← past_append_ahead h time, hbefore, hafter]
  simp

/-- Up to the first key, the first two keys are found, if there are two. -/
theorem segment?_of_le_first (hfirst : keys.head? = some first) (htime : time ≤ first.time) :
    (keys = [first] ∧ segment? time keys = none) ∨
      ∃ second, [first, second] <+: keys ∧ first.time ≤ second.time ∧ segment? time keys = some (first, second) := by
  obtain ⟨rest, rfl⟩ := List.head?_eq_some_iff.1 hfirst
  cases rest with
  | nil => exact .inl ⟨rfl, rfl⟩
  | cons second rest =>
    have hsecond : first.time ≤ second.time := (List.pairwise_cons.1 h).1 second List.mem_cons_self
    exact .inr ⟨second, ⟨rest, rfl⟩, hsecond, if_pos (htime.trans hsecond)⟩

/-- The last key comes before no other one. -/
theorem le_last (hlast : keys.getLast? = some last) : ∀ key ∈ keys, key.time ≤ last.time := by
  obtain ⟨before, rfl⟩ := List.getLast?_eq_some_iff.1 hlast
  obtain ⟨-, -, hbefore⟩ := List.pairwise_append.1 h
  intro key hkey
  rcases List.mem_append.1 hkey with hkey | hkey
  · exact hbefore key hkey last (List.mem_singleton_self last)
  · rw [List.mem_singleton.1 hkey]

/-- At the time of a key, the first key that is not before the position is the first one of that time. -/
theorem head?_ahead_of_mem {key : Keyframe ℝ β} (hkey : key ∈ keys) :
    (ahead key.time keys).head? = keys.find? fun other => other.time = key.time := by
  have hmem : key ∈ ahead key.time keys := List.mem_filter.2 ⟨hkey, decide_eq_true le_rfl⟩
  obtain ⟨b, after, hahead⟩ := List.exists_cons_of_ne_nil (List.ne_nil_of_mem hmem)
  have hb : b.time = key.time := by
    have hascending : (b :: after).Pairwise fun a b => a.time ≤ b.time := hahead ▸ h.filter _
    have hle : b.time ≤ key.time := by
      rcases List.mem_cons.1 (hahead ▸ hmem) with rfl | hafter
      · exact le_rfl
      · exact (List.pairwise_cons.1 hascending).1 key hafter
    exact le_antisymm hle (le_time_of_mem_ahead (hahead ▸ List.mem_cons_self))
  have hpast : (past key.time keys).find? (fun other => other.time = key.time) = none := by
    refine List.find?_eq_none.2 fun other hother => ?_
    simpa using (time_lt_of_mem_past hother).ne
  conv_rhs => rw [← past_append_ahead h key.time]
  rw [List.find?_append, hpast, hahead, Option.none_or, List.head?_cons, List.find?_cons, decide_eq_true hb]

theorem Around.segment?_eq (haround : Around keys time a b) : segment? time keys = some (a, b) := by
  obtain ⟨before, after, hsplit⟩ := haround.adjacent
  rw [List.append_assoc] at hsplit
  rw [← hsplit, List.pairwise_append] at h
  obtain ⟨-, -, hbefore⟩ := h
  rw [← hsplit]
  refine segment?_append (fun key hkey => ?_) haround.lt haround.le after
  exact (hbefore key hkey a (by simp)).trans_lt haround.lt

/-- Of the two keys that are found for a position the second one is later, but for the first two keys of a track that
    starts at or after the position. -/
theorem span_of_segment? (hfirst : keys.head? = some first) (hlast : keys.getLast? = some last)
    (hsegment : segment? time keys = some (a, b)) :
    0 < b.time - a.time ∨ b.time = a.time ∧ time ≤ first.time := by
  rcases le_or_gt time first.time with htime | htime
  · rcases segment?_of_le_first h hfirst htime with ⟨-, hnone⟩ | ⟨second, -, hle, hsome⟩
    · rw [hnone] at hsegment
      cases hsegment
    · obtain ⟨rfl, rfl⟩ := Prod.mk.inj (Option.some.inj (hsome.symm.trans hsegment))
      rcases hle.lt_or_eq with hlt | heq
      · exact .inl (sub_pos.2 hlt)
      · exact .inr ⟨heq.symm, htime⟩
  · -- what is found for a position after the first key surrounds it
    obtain ⟨-, hb, hle⟩ := of_segment?_eq_some hsegment
    obtain ⟨p, n, haround⟩ := exists_around h hfirst hlast htime (hle.trans (le_last h hlast b hb))
    have hfound := (haround.segment?_eq h).symm.trans hsegment
    obtain ⟨rfl, rfl⟩ := Prod.mk.inj (Option.some.inj hfound)
    exact .inl haround.span_pos

end Ascending

/-! ### Keys that are put in order -/

theorem inOrder_ofKeys (given : List (Keyframe ℝ β)) : InOrder (ofKeys given).keys given := by
  have htrans : ∀ a b c : Keyframe ℝ β, Scalar.totalLe a.time b.time → Scalar.totalLe b.time c.time →
      Scalar.totalLe a.time c.time := by
    intro a b c hab hbc
    exact decide_eq_true ((of_decide_eq_true hab).trans (of_decide_eq_true hbc))
  have htotal : ∀ a b : Keyframe ℝ β, Scalar.totalLe a.time b.time || Scalar.totalLe b.time a.time := by
    intro a b
    rcases le_total a.time b.time with hab | hba
    · exact Bool.or_eq_true_iff.2 (.inl (decide_eq_true hab))
    · exact Bool.or_eq_true_iff.2 (.inr (decide_eq_true hba))
  have hperm : (ofKeys given).keys.Perm given := List.mergeSort_perm _ _
  refine ⟨hperm, ?_, fun time => ?_⟩
  · exact (List.pairwise_mergeSort htrans htotal given).imp of_decide_eq_true
  · -- the keys of one time are in order as they are given, so sorting does not move them
    have hequal : (given.filter fun key => key.time = time).Pairwise fun a b => Scalar.totalLe a.time b.time := by
      refine List.pairwise_of_forall_mem_list fun a ha b hb => decide_eq_true ?_
      have hatime : a.time = time := of_decide_eq_true (List.mem_filter.1 ha).2
      have hbtime : b.time = time := of_decide_eq_true (List.mem_filter.1 hb).2
      rw [hatime, hbtime]
    have hsub : (given.filter fun key => key.time = time).Sublist (ofKeys given).keys :=
      List.sublist_mergeSort htrans htotal hequal List.filter_sublist
    have hfilter := hsub.filter fun key => key.time = time
    rw [List.filter_filter] at hfilter
    simp only [Bool.and_self] at hfilter
    exact (hfilter.eq_of_length (hperm.filter _).length_eq.symm).symm

/-- The first key of a time stays the first one. -/
theorem InOrder.find?_eq (h : InOrder keys given) (time : ℝ) :
    keys.find? (fun key => key.time = time) = given.find? fun key => key.time = time := by
  rw [← List.head?_filter, ← List.head?_filter, h.stable]

/-- Keys of distinct times may be given in any order. -/
theorem ofKeys_eq_of_perm (hdistinct : (given.map (·.time)).Nodup) (hperm : keys.Perm given) :
    ofKeys keys = ofKeys given := by
  have hkeys := inOrder_ofKeys keys
  have hgiven := inOrder_ofKeys given
  have heq : (ofKeys keys).keys = (ofKeys given).keys := by
    refine List.Perm.eq_of_pairwise ?_ hkeys.ascending hgiven.ascending
      (hkeys.perm.trans (hperm.trans hgiven.perm.symm))
    intro a b ha hb hab hba
    have hmem_a : a ∈ given := hperm.subset (hkeys.perm.subset ha)
    exact List.inj_on_of_nodup_map hdistinct hmem_a (hgiven.perm.subset hb) (le_antisymm hab hba)
  exact congrArg Track.mk heq

end Keys

/-! ## Samples -/

section Exact

variable {β : Type} [Interpolable ℝ β] {track : Track ℝ β} {first last a b : Keyframe ℝ β} {time : ℝ}

section Ascending

variable (h : track.keys.Pairwise fun a b => a.time ≤ b.time)

include h

theorem Around.sample_eq (haround : Around track.keys time a b) :
    track.sample time =
      Interpolable.interpolate a.value b.value ((time - a.time) / (b.time - a.time)) := by
  rw [sample_of_segment?_eq_some (haround.segment?_eq h), progress_of_lt haround.lt haround.le]

/-- Behind the last key the track keeps its value. -/
theorem sample_of_last_lt (hlast : track.keys.getLast? = some last) (htime : last.time < time) :
    track.sample time = last.value :=
  sample_of_segment?_eq_none (segment?_eq_none fun key hkey => (le_last h hlast key hkey).trans_lt htime) hlast

/-- Up to the first key the track is at the start of the way to the second key, if there is one. -/
theorem sample_of_le_first (hfirst : track.keys.head? = some first) (htime : time ≤ first.time) :
    track.sample time = first.value ∨
      ∃ second, [first, second] <+: track.keys ∧
        track.sample time = Interpolable.interpolate first.value second.value 0 := by
  rcases segment?_of_le_first h hfirst htime with ⟨hkeys, hsegment⟩ | ⟨second, hsecond, -, hsegment⟩
  · refine .inl (sample_of_segment?_eq_none hsegment ?_)
    rw [hkeys, List.getLast?_singleton]
  · exact .inr ⟨second, hsecond, by rw [sample_of_segment?_eq_some hsegment, progress_of_le htime]⟩

end Ascending

/-- A track from its first key on: between the neighbours that surround a position it is interpolated, and behind the
    last key it keeps its value. The way between the two keys that are found for a position has a positive length, or it
    is empty and no key comes before the position; then there is no progress on it, and nothing is divided. -/
structure Follows (track : Track ℝ β) (interpolate : β → β → ℝ → β) (first last : Keyframe ℝ β) : Prop where
  head?_eq : track.keys.head? = some first
  getLast?_eq : track.keys.getLast? = some last
  between : ∀ time, first.time < time → time ≤ last.time → ∃ a b, Around track.keys time a b ∧
    0 < b.time - a.time ∧ track.sample time = interpolate a.value b.value ((time - a.time) / (b.time - a.time))
  behind : ∀ time, last.time < time → track.sample time = last.value
  span : ∀ time a b, segment? time track.keys = some (a, b) →
    0 < b.time - a.time ∨ b.time = a.time ∧ time ≤ first.time ∧ progress a.time b.time time = 0

/-- Keys that are put in order make a track that follows them. -/
theorem exists_follows {given : List (Keyframe ℝ β)} (hgiven : given ≠ []) :
    ∃ first last, (ofKeys given).Follows Interpolable.interpolate first last := by
  have horder := inOrder_ofKeys given
  have hascending := horder.ascending
  have hne : (ofKeys given).keys ≠ [] := mt (fun hnil => List.nil_perm.1 (hnil ▸ horder.perm)) hgiven
  obtain ⟨first, hfirst⟩ := Option.isSome_iff_exists.1 (List.isSome_head?.2 hne)
  obtain ⟨last, hlast⟩ := Option.isSome_iff_exists.1 (List.getLast?_isSome.2 hne)
  refine ⟨first, last, hfirst, hlast, ?_, ?_, ?_⟩
  · intro time hfirst_lt hle_last
    obtain ⟨a, b, haround⟩ := exists_around hascending hfirst hlast hfirst_lt hle_last
    exact ⟨a, b, haround, haround.span_pos, haround.sample_eq hascending⟩
  · intro time htime
    exact sample_of_last_lt hascending hlast htime
  · intro time a b hsegment
    rcases span_of_segment? hascending hfirst hlast hsegment with hspan | ⟨hspan, htime⟩
    · exact .inl hspan
    · obtain ⟨-, -, hle⟩ := of_segment?_eq_some hsegment
      exact .inr ⟨hspan, htime, progress_of_le (hle.trans_eq hspan)⟩

end Exact

/-! ### Translations, scales and rotations -/

section Vectors

variable {given : List (Keyframe ℝ (Vec3 ℝ))} {first last : Keyframe ℝ (Vec3 ℝ)} {time : ℝ}

theorem sample_vec3_of_le_first (hfirst : (ofKeys given).keys.head? = some first) (htime : time ≤ first.time) :
    (ofKeys given).sample time = first.value := by
  rcases sample_of_le_first (inOrder_ofKeys given).ascending hfirst htime with h | ⟨second, -, h⟩
  · exact h
  · exact h.trans (Vec3.lerp_zero _ _)

/-- At the time of a key, the value is that of the first key of that time. -/
theorem sample_vec3_of_find? {key : Keyframe ℝ (Vec3 ℝ)} (hkey : given.find? (fun key => key.time = time) = some key) :
    (ofKeys given).sample time = key.value := by
  have horder := inOrder_ofKeys given
  have hascending := horder.ascending
  have hmem : key ∈ (ofKeys given).keys := horder.perm.mem_iff.2 (List.mem_of_find?_eq_some hkey)
  obtain rfl : key.time = time := by simpa using List.find?_some hkey
  have hahead : (ahead key.time (ofKeys given).keys).head? = some key := by
    rw [head?_ahead_of_mem hascending hmem, horder.find?_eq, hkey]
  obtain ⟨first, last, hfollows⟩ := exists_follows (List.ne_nil_of_mem (List.mem_of_find?_eq_some hkey))
  rcases le_or_gt key.time first.time with htime | htime
  · have hfirst := (head?_ahead_of_le hfollows.head?_eq htime).symm.trans hahead
    rw [sample_vec3_of_le_first hfollows.head?_eq htime, Option.some.inj hfirst]
  · obtain ⟨a, b, haround, hspan, hsample⟩ :=
      hfollows.between key.time htime (le_last hascending hfollows.getLast?_eq key hmem)
    obtain rfl := Option.some.inj (haround.head?_ahead.symm.trans hahead)
    rw [hsample, div_self hspan.ne']
    exact Vec3.lerp_one _ _

end Vectors

theorem sample_quat_of_le_first {given : List (Keyframe ℝ (Quat ℝ))} {first : Keyframe ℝ (Quat ℝ)} {time : ℝ}
    (hfirst : (ofKeys given).keys.head? = some first) (htime : time ≤ first.time) (hunit : first.value.IsUnit) :
    (ofKeys given).sample time = first.value := by
  rcases sample_of_le_first (inOrder_ofKeys given).ascending hfirst htime with h | ⟨second, -, h⟩
  · exact h
  · have hstart : (first.value.slerp second.value 0).normalize = first.value := by
      rw [hunit.slerp_zero, hunit.normalize_eq]
    exact h.trans hstart

/-- A track that is made of some keys has them in order, whatever order they are given in, which makes no difference if
    their times are distinct. Up to the first key a track of vectors has the value of that key, behind the last key it
    has the value of the last one, and in between it runs along the line through the values of the neighbours that
    surround the position; so at a time that keys have, it has the value of the first of these. A track of rotations
    goes along the arc from one neighbour to the other at the same pace. Up to the first key it is at the start of the
    first arc, which is the first rotation if that has length one. -/
theorem sample_ofKeys :
    (∀ given : List (Keyframe ℝ (Vec3 ℝ)), given ≠ [] →
      let track := ofKeys given
      InOrder track.keys given ∧
      (∃ first last, track.Follows Vec3.onLine first last ∧ ∀ time ≤ first.time, track.sample time = first.value) ∧
      (∀ time key, given.find? (fun key => key.time = time) = some key → track.sample time = key.value) ∧
      ((given.map (·.time)).Nodup → ∀ keys, keys.Perm given → ofKeys keys = track)) ∧
    ∀ given : List (Keyframe ℝ (Quat ℝ)), given ≠ [] →
      let track := ofKeys given
      InOrder track.keys given ∧
      (∃ first last, track.Follows (fun p q t => (p.slerp q t).normalize) first last ∧ ∀ time ≤ first.time,
        (track.sample time = first.value ∨ ∃ second, [first, second] <+: track.keys ∧
          track.sample time = (first.value.slerp second.value 0).normalize) ∧
        (first.value.IsUnit → track.sample time = first.value)) ∧
      ((given.map (·.time)).Nodup → ∀ keys, keys.Perm given → ofKeys keys = track) := by
  constructor
  · intro given hgiven track
    obtain ⟨first, last, hfollows⟩ := exists_follows hgiven
    have hline : (Interpolable.interpolate : Vec3 ℝ → Vec3 ℝ → ℝ → Vec3 ℝ) = Vec3.onLine :=
      funext fun a => funext fun b => funext (Vec3.lerp_eq_onLine a b)
    rw [hline] at hfollows
    refine ⟨inOrder_ofKeys given, ⟨first, last, hfollows, ?_⟩, ?_, ?_⟩
    · intro time htime
      exact sample_vec3_of_le_first hfollows.head?_eq htime
    · intro time key hkey
      exact sample_vec3_of_find? hkey
    · intro hdistinct keys hperm
      exact ofKeys_eq_of_perm hdistinct hperm
  · intro given hgiven track
    obtain ⟨first, last, hfollows⟩ := exists_follows hgiven
    refine ⟨inOrder_ofKeys given, ⟨first, last, hfollows, fun time htime => ⟨?_, ?_⟩⟩, ?_⟩
    · exact sample_of_le_first (inOrder_ofKeys given).ascending hfollows.head?_eq htime
    · exact sample_quat_of_le_first hfollows.head?_eq htime
    · intro hdistinct keys hperm
      exact ofKeys_eq_of_perm hdistinct hperm

/-! ### A jump -/

/-- At time zero the value jumps. -/
noncomputable def jump : List (Keyframe ℝ (Vec3 ℝ)) :=
  [⟨1, ⟨1, 1, 0⟩⟩, ⟨0, ⟨0, 0, 0⟩⟩, ⟨0, ⟨0, 1, 0⟩⟩, ⟨-1, ⟨-1, 0, 0⟩⟩]

theorem keys_jump : (ofKeys jump).keys = [⟨-1, ⟨-1, 0, 0⟩⟩, ⟨0, ⟨0, 0, 0⟩⟩, ⟨0, ⟨0, 1, 0⟩⟩, ⟨1, ⟨1, 1, 0⟩⟩] := by
  norm_num [jump, ofKeys, List.mergeSort, List.merge, Scalar.totalLe]

/-- Half a turn. -/
noncomputable def halfTurn : List (Keyframe ℝ (Quat ℝ)) := [⟨0, .identity⟩, ⟨1, ⟨0, 0, 1, 0⟩⟩]

theorem keys_halfTurn : (ofKeys halfTurn).keys = [⟨0, .identity⟩, ⟨1, ⟨0, 0, 1, 0⟩⟩] := by
  simp [halfTurn, ofKeys, List.mergeSort, Scalar.totalLe]

/-- At the jump the value is the one before it, and half way to the last key it is between the one after it and the last
    one. Of half a turn the keys may be given in any order. -/
theorem sample_ofKeys_jump :
    jump ≠ [] ∧ halfTurn ≠ [] ∧ (halfTurn.map (·.time)).Nodup ∧
    (ofKeys jump).sample (-2) = ⟨-1, 0, 0⟩ ∧ (ofKeys jump).sample 0 = ⟨0, 0, 0⟩ ∧
    (ofKeys jump).sample (1 / 2) = ⟨1 / 2, 1, 0⟩ ∧ (ofKeys jump).sample 2 = ⟨1, 1, 0⟩ ∧
    (ofKeys halfTurn).sample 0 = .identity ∧ ofKeys halfTurn.reverse = ofKeys halfTurn := by
  obtain ⟨hvectors, hrotations⟩ := sample_ofKeys
  obtain ⟨-, ⟨first, last, hfollows, hbefore⟩, hsame, -⟩ := hvectors jump (List.cons_ne_nil _ _)
  obtain ⟨-, ⟨start, stop, hturns, hstart⟩, hgiven⟩ := hrotations halfTurn (List.cons_ne_nil _ _)
  obtain rfl : ⟨-1, ⟨-1, 0, 0⟩⟩ = first := by simpa [keys_jump] using hfollows.head?_eq
  obtain rfl : ⟨1, ⟨1, 1, 0⟩⟩ = last := by simpa [keys_jump] using hfollows.getLast?_eq
  obtain rfl : ⟨0, .identity⟩ = start := by simpa [keys_halfTurn] using hturns.head?_eq
  have hdistinct : (halfTurn.map (·.time)).Nodup := by simp [halfTurn]
  refine ⟨List.cons_ne_nil _ _, List.cons_ne_nil _ _, hdistinct, ?_, ?_, ?_, ?_, ?_, ?_⟩
  · exact hbefore (-2) (by norm_num)
  · refine hsame 0 ⟨0, ⟨0, 0, 0⟩⟩ ?_
    simp [jump]
  · obtain ⟨a, b, haround, -, hsample⟩ := hfollows.between (1 / 2) (by norm_num) (by norm_num)
    obtain rfl : ⟨0, ⟨0, 1, 0⟩⟩ = a := by
      have hpast := haround.getLast?_past
      norm_num [keys_jump, past, List.filter_cons] at hpast
      exact hpast
    obtain rfl : ⟨1, ⟨1, 1, 0⟩⟩ = b := by
      have hahead := haround.head?_ahead
      norm_num [keys_jump, ahead, List.filter_cons] at hahead
      exact hahead
    rw [hsample]
    norm_num [Vec3.onLine, Vec3.zipWith]
  · exact hfollows.behind 2 (by norm_num)
  · exact (hstart 0 le_rfl).2 Quat.isUnit_identity
  · exact hgiven hdistinct _ (List.reverse_perm halfTurn)

end Track
end Armature
