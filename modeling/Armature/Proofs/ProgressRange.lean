import Armature.Proofs.MonotoneRounding

/-!
# How far a position is on its way

Between two keys a value is interpolated by how far the position is on the way, a number between zero and one
(`Track.sample_within_unit`). That holds for keys of any times: infinite ones, ones that are no numbers, and ones so far
apart that their difference overflows. Of rounding it takes no more than that differences and quotients round
monotonically (`Scalar.RoundsMonotonically`, `Track.progress_within_unit`): a position that is not after the second key
is then at most as far from the first one as that key is.
-/

namespace Armature

namespace Scalar

variable {α : Type} [Scalar α]

/-- Numbers are what is compared with itself. -/
def IsNumber (x : α) : Prop := x ≤ x

/-- Scalars whose numbers are in order, and whose differences and quotients round monotonically. A quotient that is a
    number has numbers for its operands, and one by an infinite scalar is not positive. -/
structure RoundsMonotonically (α : Type) [Scalar α] : Prop where
  zero_beq : ((0 : α) == 0) = true
  zero_le_one : (0 : α) ≤ 1
  isNumber : ∀ {x y : α}, x ≤ y → IsNumber x ∧ IsNumber y
  trans : ∀ {x y z : α}, x ≤ y → y ≤ z → x ≤ z
  le_of_lt : ∀ {x y : α}, x < y → x ≤ y
  lt_of_not_le : ∀ {x y : α}, IsNumber x → IsNumber y → ¬ x ≤ y → y < x
  isNumber_of_div : ∀ {x y : α}, IsNumber (x / y) → IsNumber x ∧ IsNumber y
  isNumber_div_self : ∀ {x y : α}, 0 < y → 0 < x / y → IsNumber (y / y)
  div_self_le_one : ∀ {x : α}, 0 < x → IsNumber (x / x) → x / x ≤ 1
  sub_le_sub : ∀ {x y z : α}, x ≤ y → IsNumber (x - z) → IsNumber (y - z) → x - z ≤ y - z
  div_le_div : ∀ {x y z : α}, x ≤ y → 0 < z → IsNumber (x / z) → IsNumber (y / z) → x / z ≤ y / z

end Scalar

open Scalar

namespace Track

section Monotone

variable {α : Type} [Scalar α] {start stop time : α}

theorem progress_eq (h : RoundsMonotonically α) :
    progress start stop time =
      if ¬ stop - start ≤ 0 ∧ 0 < (time - start) / (stop - start) then (time - start) / (stop - start) else 0 := by
  simp only [progress, Scalar.max, h.zero_beq, if_true]
  split
  · next hspan => simp [hspan]
  · next hspan => simp [hspan]

/-- If rounding is monotone, a position that is not after the end of the way is between its two ends. -/
theorem progress_within_unit (h : RoundsMonotonically α) (htime : time ≤ stop) :
    0 ≤ progress start stop time ∧ progress start stop time ≤ 1 := by
  have hzero := (h.isNumber h.zero_le_one).1
  rw [progress_eq h]
  split
  · next hway =>
    obtain ⟨hspan, hquotient⟩ := hway
    have hnonneg := h.le_of_lt hquotient
    obtain ⟨hgone, hwhole⟩ := h.isNumber_of_div (h.isNumber hnonneg).2
    have hpos := h.lt_of_not_le hwhole hzero hspan
    -- neither the way nor the part of it that is behind the position is without a number
    have hle := h.sub_le_sub htime hgone hwhole
    have hself := h.isNumber_div_self hpos hquotient
    exact ⟨hnonneg, h.trans (h.div_le_div hle hpos (h.isNumber hnonneg).2 hself) (h.div_self_le_one hpos hself)⟩
  · exact ⟨hzero, h.zero_le_one⟩

end Monotone

end Track

/-! ## Floats -/

namespace Binary32

variable {x y : Binary32}

theorem isNumber_iff : IsNumber x ↔ x.isNaN = false := by
  rw [IsNumber, le_iff]
  exact ⟨fun h => h.1, fun h => ⟨h, h, Int.le_refl _⟩⟩

/-- A finite float other than zero goes once into itself. -/
theorem div_self_le_one (hpos : 0 < x) (h : (x / x).isNaN = false) : x / x ≤ 1 := by
  rcases finite_or_infinite (isNaN_of_div h).1 with hfinite | hinfinite | hinfinite
  · have hvalue := value_pos hpos
    have hone : RoundsTo 1 (1 : Binary32) := by
      have h := roundsTo_ofRatio false 1 Nat.one_pos
      norm_num at h
      exact h
    have hrounds := roundsTo_div hfinite hfinite hvalue.ne'
    rw [div_self hvalue.ne'] at hrounds
    exact hrounds.mono hone le_rfl
  all_goals
    refine le_iff.2 ⟨h, rfl, ?_⟩
    rw [key_div_of_infinite_right hinfinite h]
    decide

/-- Nothing positive goes into an infinite float. -/
theorem isNaN_div_self (hpos : 0 < y) (h : 0 < x / y) : (y / y).isNaN = false := by
  obtain ⟨-, hnan, hkey⟩ := lt_iff.1 h
  rcases finite_or_infinite (isNaN_of_div hnan).2 with hfinite | hinfinite | hinfinite
  · obtain ⟨-, -, -, -, hnumber, -⟩ := roundsTo_div hfinite hfinite (value_pos hpos).ne'
    exact hnumber
  all_goals
    rw [key_div_of_infinite_right hinfinite hnan] at hkey
    exact absurd hkey (lt_irrefl _)

theorem roundsMonotonically : RoundsMonotonically Binary32 where
  zero_beq := by decide
  zero_le_one := by decide
  isNumber h := ⟨isNumber_iff.2 (le_iff.1 h).1, isNumber_iff.2 (le_iff.1 h).2.1⟩
  trans := le_trans
  le_of_lt := le_of_lt
  lt_of_not_le hx hy h := by
    by_contra hlt
    exact h (le_of_not_lt (isNumber_iff.1 hx) (isNumber_iff.1 hy) hlt)
  isNumber_of_div h := (isNaN_of_div (isNumber_iff.1 h)).imp isNumber_iff.2 isNumber_iff.2
  isNumber_div_self hpos h := isNumber_iff.2 (isNaN_div_self hpos h)
  div_self_le_one hpos h := div_self_le_one hpos (isNumber_iff.1 h)
  sub_le_sub h hx hy := sub_le_sub h (isNumber_iff.1 hx) (isNumber_iff.1 hy)
  div_le_div h hpos hx hy := div_le_div h hpos (isNumber_iff.1 hx) (isNumber_iff.1 hy)

end Binary32

/-! ## Samples -/

namespace Track

/-- At a position between two keys the value is interpolated by how far the position is on the way from one to the
    other, a number from zero to one; at any other position it is the last value, or the identity without keys. -/
def SampledWithinUnit {α β : Type} [Scalar α] [Interpolable α β] (track : Track α β) (time : α) : Prop :=
  match segment? time track.keys with
  | some (a, b) =>
    let t := progress a.time b.time time
    track.sample time = Interpolable.interpolate a.value b.value t ∧ IsNumber t ∧ 0 ≤ t ∧ t ≤ 1
  | none =>
    track.sample time = (track.keys.getLast?.map (·.value)).getD Interpolable.identity

theorem sampledWithinUnit_of_roundsMonotonically {α β : Type} [Scalar α] [Interpolable α β]
    (h : RoundsMonotonically α) (track : Track α β) (time : α) : track.SampledWithinUnit time := by
  unfold SampledWithinUnit
  split
  · next a b hsegment =>
    obtain ⟨hnonneg, hle⟩ := progress_within_unit h (of_segment?_eq_some hsegment).2.2
    exact ⟨sample_of_segment?_eq_some hsegment, (h.isNumber hle).1, hnonneg, hle⟩
  · next hsegment =>
    cases hlast : track.keys.getLast? with
    | some last => exact sample_of_segment?_eq_none hsegment hlast
    | none =>
      have hkeys : track.keys = [] := List.getLast?_eq_none_iff.1 hlast
      simp only [sample, hkeys, Option.map_none, Option.getD_none]

/-- A track interpolates between two keys by a number from zero to one, for keys of any times, in any order, and for
    any position, if differences and quotients round monotonically. Those of floats do, so the number that a track of
    floats interpolates by is neither below zero, nor above one, nor no number. -/
theorem sample_within_unit :
    (∀ (α β : Type) [Scalar α] [Interpolable α β], RoundsMonotonically α →
      ∀ (given : List (Keyframe α β)) (time : α), (ofKeys given).SampledWithinUnit time) ∧
    RoundsMonotonically Binary32 ∧
    ∀ (β : Type) [Interpolable Binary32 β] (given : List (Keyframe Binary32 β)) (time : Binary32),
      let track := ofKeys given
      match segment? time track.keys with
      | some (a, b) =>
        let t := progress a.time b.time time
        track.sample time = Interpolable.interpolate a.value b.value t ∧ t.isNaN = false ∧ 0 ≤ t ∧ t ≤ 1
      | none =>
        track.sample time = (track.keys.getLast?.map (·.value)).getD Interpolable.identity := by
  refine ⟨fun α β _ _ h given time => sampledWithinUnit_of_roundsMonotonically h _ time,
    Binary32.roundsMonotonically, fun β _ given time => ?_⟩
  have h := sampledWithinUnit_of_roundsMonotonically Binary32.roundsMonotonically (ofKeys given) time
  unfold SampledWithinUnit at h
  simp only
  split
  · next a b hsegment =>
    simp only [hsegment] at h
    obtain ⟨hsample, hnumber, hrange⟩ := h
    exact ⟨hsample, Binary32.isNumber_iff.1 hnumber, hrange⟩
  · next hsegment =>
    simp only [hsegment] at h
    exact h

/-! ### A way that is too long -/

/-- The greatest finite float. -/
def greatest : Binary32 := Binary32.ofParts false (Binary32.format.infinity - 1)

/-- From the least finite float to the greatest one, with an infinite key before them and one that is no number behind
    them. -/
def expanse : List (Keyframe Binary32 (Vec3 Binary32)) :=
  [⟨Binary32.infinity true, ⟨1, 0, 0⟩⟩, ⟨-greatest, ⟨0, 0, 0⟩⟩, ⟨greatest, ⟨0, 1, 0⟩⟩, ⟨Binary32.nan, ⟨0, 0, 1⟩⟩]

theorem keys_expanse : (ofKeys expanse).keys = expanse :=
  List.mergeSort_of_pairwise (by decide)

/-- The span between the two finite keys overflows, and so does the part of it that is behind the later one. Their
    quotient is no number and counts as zero, so at the later key the track is at the start of the way. -/
theorem sample_within_unit_expanse :
    RoundsMonotonically Binary32 ∧
    greatest - -greatest = Binary32.infinity false ∧
    ((greatest - -greatest) / (greatest - -greatest)).isNaN ∧
    segment? greatest (ofKeys expanse).keys = some (⟨-greatest, ⟨0, 0, 0⟩⟩, ⟨greatest, ⟨0, 1, 0⟩⟩) ∧
    (ofKeys expanse).SampledWithinUnit greatest ∧
    (ofKeys expanse).sample greatest = Interpolable.interpolate ⟨0, 0, 0⟩ ⟨0, 1, 0⟩ (0 : Binary32) := by
  obtain ⟨hmonotone, hrounds, hfloats⟩ := sample_within_unit
  have hsegment : segment? greatest (ofKeys expanse).keys =
      some (⟨-greatest, ⟨0, 0, 0⟩⟩, ⟨greatest, ⟨0, 1, 0⟩⟩) := by
    rw [keys_expanse]
    exact (if_neg (by decide)).trans (if_pos (by decide))
  refine ⟨hrounds, by decide, by decide, hsegment, hmonotone _ _ hrounds expanse greatest, ?_⟩
  have h := hfloats _ expanse greatest
  simp only [hsegment] at h
  have hzero : progress (-greatest) greatest greatest = 0 := by decide
  rw [h.1, hzero]

end Track
end Armature
