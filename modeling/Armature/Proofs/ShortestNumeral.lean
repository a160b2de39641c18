import Armature.Number.Shortest
import Armature.Proofs.Rounding

/-!
# Shortest decimals

The shortest decimal of a positive float lies around the float, not more than one step of its grid away, and the grid is
coarse: ten steps are at least as long as the way to the next half way point (`Binary32.short_shortest`). The grid one
power of ten above has no point around the float, and would have one if it were finer than that.
-/

namespace Armature

theorem cast_tenPow (n : Nat) : (tenPow n : ℚ) = 10 ^ n := by
  change ((10 ^ n : Nat) : ℚ) = 10 ^ n
  push_cast
  rfl

namespace Binary32

/-! ## Neighbourhoods -/

/-- The unit of a neighbourhood is a quarter of the spacing. -/
theorem two_zpow_unit (number : Nat) :
    (2 : ℚ) ^ (neighbourhood number).unit = 2 ^ (format.decode number).2 / 4 := by
  have hunit : (neighbourhood number).unit = (format.decode number).2 - 2 := rfl
  rw [hunit, zpow_sub₀ (by norm_num)]
  norm_num

theorem centre_neighbourhood (number : Nat) :
    ((neighbourhood number).centre : ℚ) * 2 ^ (neighbourhood number).unit = format.value number := by
  have hcentre : (neighbourhood number).centre = 4 * (format.decode number).1 := rfl
  rw [two_zpow_unit, hcentre, FloatFormat.value]
  push_cast
  ring

theorem high_neighbourhood (number : Nat) :
    ((neighbourhood number).high : ℚ) * 2 ^ (neighbourhood number).unit = format.midpoint number := by
  have hhigh : (neighbourhood number).high = 4 * (format.decode number).1 + 2 := rfl
  rw [two_zpow_unit, hhigh, FloatFormat.midpoint]
  push_cast
  ring

/-- Below a power of two the values are half as far apart. -/
theorem low_neighbourhood (number : Nat) :
    ((neighbourhood (number + 1)).low : ℚ) * 2 ^ (neighbourhood (number + 1)).unit = format.midpoint number := by
  have hlow : (neighbourhood (number + 1)).low = 4 * (format.decode (number + 1)).1 -
      (if (number + 1) % format.binade = 0 ∧ format.binade < number + 1 then 1 else 2) := rfl
  have hpred := format.decode_pred number
  have hbinade := format.binade_pos
  rw [two_zpow_unit, hlow, FloatFormat.midpoint]
  split at hpred
  · next hpower =>
    obtain ⟨hfirst, hdecode⟩ := hpred
    rw [if_pos hpower, hfirst, hdecode, zpow_sub_one₀ (by norm_num), Nat.cast_sub (by omega), Nat.cast_sub (by omega)]
    push_cast
    ring
  · next hpower =>
    obtain ⟨hpos, hdecode⟩ := hpred
    rw [if_neg hpower, hdecode, Nat.cast_sub (by omega), Nat.cast_sub (by omega)]
    push_cast
    ring

/-! ## Grids -/

/-- Multiples of a power of two and of a power of ten are compared as natural numbers, in a common unit. -/
theorem exists_scale (unit power : Int) : ∃ k : ℚ, 0 < k ∧
    ((tenPow (-power).toNat <<< unit.toNat : Nat) : ℚ) = 2 ^ unit * k ∧
    ((tenPow power.toNat <<< (-unit).toNat : Nat) : ℚ) = 10 ^ power * k := by
  refine ⟨10 ^ (-power).toNat * 2 ^ (-unit).toNat, by positivity, ?_, ?_⟩
  · rw [cast_shiftLeft, cast_tenPow, ← zpow_toNat_div 2 unit]
    field_simp
  · rw [cast_shiftLeft, cast_tenPow, ← zpow_toNat_div 10 power]
    field_simp

theorem divNearest_eq_or (n d : Nat) : divNearest n d = n / d ∨ divNearest n d = n / d + 1 := by
  unfold divNearest
  simp only
  split
  · exact .inl rfl
  · rcases Nat.mod_two_eq_zero_or_one (n / d) with h | h
    · exact .inl (by rw [h, Nat.add_zero])
    · exact .inr (by rw [h])
  · exact .inr rfl

namespace Neighbourhood

variable (h : Neighbourhood) (power : Int)

/-- The factor of the last multiple of a power of ten that is not above the centre. -/
def below : Nat :=
  h.centre * (tenPow (-power).toNat <<< h.unit.toNat) / (tenPow power.toNat <<< (-h.unit).toNat)

/-- Whether a multiple of a power of ten lies in the neighbourhood. -/
def inside (c : Nat) : Bool :=
  let num := tenPow (-power).toNat <<< h.unit.toNat
  let den := tenPow power.toNat <<< (-h.unit).toNat
  if h.closed then h.low * num ≤ c * den && c * den ≤ h.high * num
  else h.low * num < c * den && c * den < h.high * num

theorem onGrid?_eq : h.onGrid? power =
    match h.inside power (h.below power), h.inside power (h.below power + 1) with
    | true, true => some (divNearest (h.centre * (tenPow (-power).toNat <<< h.unit.toNat))
        (tenPow power.toNat <<< (-h.unit).toNat))
    | true, false => some (h.below power)
    | false, true => some (h.below power + 1)
    | false, false => none := rfl

/-- The multiple that is taken is in the neighbourhood, and next to the centre. -/
theorem of_onGrid?_eq_some {c : Nat} (hc : h.onGrid? power = some c) :
    h.inside power c ∧ (c = h.below power ∨ c = h.below power + 1) := by
  rw [onGrid?_eq] at hc
  split at hc
  · next hlower hupper =>
    obtain rfl := Option.some.inj hc
    rcases divNearest_eq_or (h.centre * (tenPow (-power).toNat <<< h.unit.toNat))
      (tenPow power.toNat <<< (-h.unit).toNat) with heq | heq
    · rw [heq]
      exact ⟨hlower, .inl rfl⟩
    · rw [heq]
      exact ⟨hupper, .inr rfl⟩
  · next hlower _ => exact Option.some.inj hc ▸ ⟨hlower, .inl rfl⟩
  · next _ hupper => exact Option.some.inj hc ▸ ⟨hupper, .inr rfl⟩
  · cases hc

/-- If no multiple is taken, the one above the centre is not in the neighbourhood. -/
theorem inside_of_onGrid?_eq_none (hc : h.onGrid? power = none) : h.inside power (h.below power + 1) = false := by
  rw [onGrid?_eq] at hc
  split at hc
  case h_4 _ hupper => exact hupper
  all_goals cases hc

end Neighbourhood

section

variable (number : Nat) (power : Int)

/-- The multiples in the neighbourhood of a value are those around the value. -/
theorem inside_iff (c : Nat) :
    (neighbourhood (number + 1)).inside power c ↔ format.Encloses number (c * 10 ^ power) := by
  obtain ⟨k, hk, hnum, hden⟩ := exists_scale (neighbourhood (number + 1)).unit power
  have hclosed : (neighbourhood (number + 1)).closed = decide (number % 2 = 1) := by
    change decide ((number + 1) % 2 = 0) = _
    congr 1
    rw [eq_iff_iff]
    omega
  have hlow := low_neighbourhood number
  have hhigh := high_neighbourhood (number + 1)
  unfold Neighbourhood.inside
  simp only
  generalize tenPow (-power).toNat <<< (neighbourhood (number + 1)).unit.toNat = num at *
  generalize tenPow power.toNat <<< (-(neighbourhood (number + 1)).unit).toNat = den at *
  have hle (a : Nat) : a * num ≤ c * den ↔ (a * 2 ^ (neighbourhood (number + 1)).unit : ℚ) ≤ c * 10 ^ power := by
    rw [← Nat.cast_le (α := ℚ)]
    push_cast
    rw [hnum, hden, ← mul_assoc, ← mul_assoc, mul_le_mul_iff_left₀ hk]
  have hge (a : Nat) : c * den ≤ a * num ↔ (c * 10 ^ power : ℚ) ≤ a * 2 ^ (neighbourhood (number + 1)).unit := by
    rw [← Nat.cast_le (α := ℚ)]
    push_cast
    rw [hnum, hden, ← mul_assoc, ← mul_assoc, mul_le_mul_iff_left₀ hk]
  rw [hclosed]
  by_cases hodd : number % 2 = 1
  · rw [FloatFormat.encloses_iff_of_odd hodd]
    simp only [hodd, decide_true, if_true, Bool.and_eq_true, decide_eq_true_eq, hle, hge, hlow, hhigh]
  · rw [FloatFormat.encloses_iff_of_even hodd]
    simp only [hodd, decide_false, Bool.false_eq_true, if_false, Bool.and_eq_true, decide_eq_true_eq, ← not_le, hle, hge,
      hlow, hhigh]

/-- The centre lies behind the multiple below it, and before the next one. -/
theorem below_neighbourhood :
    ((neighbourhood (number + 1)).below power * 10 ^ power : ℚ) ≤ format.value (number + 1) ∧
      format.value (number + 1) < ((neighbourhood (number + 1)).below power + 1 : Nat) * 10 ^ power := by
  obtain ⟨k, hk, hnum, hden⟩ := exists_scale (neighbourhood (number + 1)).unit power
  rw [← centre_neighbourhood]
  unfold Neighbourhood.below
  generalize tenPow (-power).toNat <<< (neighbourhood (number + 1)).unit.toNat = num at *
  have hpos : 0 < tenPow power.toNat <<< (-(neighbourhood (number + 1)).unit).toNat := by
    have : (0 : ℚ) < (tenPow power.toNat <<< (-(neighbourhood (number + 1)).unit).toNat : Nat) := by
      rw [hden]
      positivity
    exact_mod_cast this
  generalize tenPow power.toNat <<< (-(neighbourhood (number + 1)).unit).toNat = den at *
  generalize (neighbourhood (number + 1)).centre = centre at *
  have hle : ((centre * num / den : Nat) * den : ℚ) ≤ centre * num := by
    exact_mod_cast Nat.div_mul_le_self (centre * num) den
  have hlt : (centre * num : ℚ) < (centre * num / den + 1 : Nat) * den := by
    have := Nat.lt_mul_div_succ (centre * num) hpos
    rw [mul_comm den] at this
    exact_mod_cast this
  rw [hnum, hden, ← mul_assoc, ← mul_assoc] at hle hlt
  exact ⟨le_of_mul_le_mul_right hle hk, lt_of_mul_lt_mul_right hlt hk.le⟩

/-- The multiples next to the centre are not further away than one step. -/
theorem abs_sub_value_le {c : Nat}
    (hc : c = (neighbourhood (number + 1)).below power ∨ c = (neighbourhood (number + 1)).below power + 1) :
    |c * 10 ^ power - format.value (number + 1)| ≤ 10 ^ power := by
  obtain ⟨hle, hlt⟩ := below_neighbourhood number power
  push_cast at hlt
  rw [abs_le]
  rcases hc with rfl | rfl
  · constructor <;> linarith
  · push_cast
    constructor <;> linarith

/-- A grid without a multiple around a value is coarse: its steps are at least as long as the way from the value to the
    next half way point. -/
theorem le_of_onGrid?_eq_none (h : (neighbourhood (number + 1)).onGrid? power = none) :
    (2 : ℚ) ^ (format.decode (number + 1)).2 / 2 ≤ 10 ^ power := by
  obtain ⟨hle, hlt⟩ := below_neighbourhood number power
  have hlower : format.midpoint number < ((neighbourhood (number + 1)).below power + 1 : Nat) * 10 ^ power :=
    (FloatFormat.midpoint_lt_value_succ number).trans hlt
  have hupper : format.midpoint (number + 1) ≤ ((neighbourhood (number + 1)).below power + 1 : Nat) * 10 ^ power := by
    have hoff := Neighbourhood.inside_of_onGrid?_eq_none _ _ h
    refine not_lt.1 fun hlt => Bool.eq_false_iff.1 hoff ?_
    exact (inside_iff number power _).2 ⟨.inl hlower, .inl hlt⟩
  have hhalf := format.midpoint_sub_value (number + 1)
  push_cast at hupper
  linarith

end

/-! ## The shortest decimal -/

theorem minExponent_le_decode (number : Nat) : -149 ≤ (format.decode number).2 :=
  (format.fits_decode number).minExponent_le

theorem decode_le {number : Nat} (h : number < format.infinity) : (format.decode number).2 ≤ 104 := by
  have hfield : number / format.binade < 255 := Nat.div_lt_of_lt_mul (by rwa [mul_comm])
  have hmin : format.minExponent = -149 := by decide
  unfold FloatFormat.decode
  simp only
  split
  · rw [hmin]
    omega
  · rw [hmin]
    push_cast
    omega

theorem getElem?_gridPowers {i : Nat} {power : Int} (h : gridPowers[i]? = some power) : i < 90 ∧ power = 40 - i := by
  simp only [gridPowers, List.getElem?_map, Option.map_eq_some_iff] at h
  obtain ⟨j, hj, rfl⟩ := h
  obtain ⟨hlt, rfl⟩ := List.getElem?_eq_some_iff.1 hj
  simpa using hlt

/-- The shortest decimal lies on the first grid with a multiple around the value, beginning with the coarsest grid. -/
theorem exists_shortest_eq (number : Nat) : ∃ c power, shortest (number + 1) = (c, power) ∧
    (neighbourhood (number + 1)).onGrid? power = some c ∧ -49 ≤ power ∧
    (power = 40 ∨ power < 40 ∧ (neighbourhood (number + 1)).onGrid? (power + 1) = none) := by
  have hsome : gridPowers.findSome?
      (fun power => ((neighbourhood (number + 1)).onGrid? power).map (·, power)) ≠ none := by
    intro hnone
    have hlast := List.findSome?_eq_none_iff.1 hnone (-49) (by decide)
    have hcoarse := le_of_onGrid?_eq_none number (-49) (Option.map_eq_none_iff.1 hlast)
    have hlow : (2 : ℚ) ^ (-149 : Int) ≤ 2 ^ (format.decode (number + 1)).2 :=
      zpow_le_zpow_right₀ (by norm_num) (minExponent_le_decode _)
    have hfine : (10 : ℚ) ^ (-49 : Int) < 2 ^ (-149 : Int) / 2 := by norm_num
    exact not_le.2 (hfine.trans_le (div_le_div_of_nonneg_right hlow (by norm_num))) hcoarse
  obtain ⟨result, hresult⟩ := Option.ne_none_iff_exists'.1 hsome
  have hshortest : shortest (number + 1) = result := by
    rw [shortest, hresult, Option.getD_some]
  obtain ⟨coarser, power, finer, hpowers, hgrid, hnone⟩ := List.findSome?_eq_some_iff.1 hresult
  obtain ⟨c, hc, rfl⟩ := Option.map_eq_some_iff.1 hgrid
  obtain ⟨hlength, hpower⟩ : coarser.length < 90 ∧ power = 40 - coarser.length :=
    getElem?_gridPowers (by simp [hpowers])
  refine ⟨c, power, hshortest, hc, by omega, ?_⟩
  rcases coarser.eq_nil_or_concat with rfl | ⟨before, previous, rfl⟩
  · exact .inl (by simpa using hpower)
  · right
    obtain ⟨-, hprevious⟩ : before.length < 90 ∧ previous = 40 - before.length :=
      getElem?_gridPowers (by simp [hpowers])
    rw [List.concat_eq_append, List.length_append, List.length_singleton] at hpower
    have hstep : power + 1 = previous := by omega
    rw [hstep]
    exact ⟨by omega, Option.map_eq_none_iff.1 (hnone previous (by simp))⟩

/-- A short decimal for the value behind the one with the given number. -/
structure Short (number c : Nat) (power : Int) : Prop where
  encloses : format.Encloses number (c * 10 ^ power)
  next : |c * 10 ^ power - format.value (number + 1)| ≤ 10 ^ power
  coarse : (2 : ℚ) ^ (format.decode (number + 1)).2 / 2 ≤ 10 ^ (power + 1)
  low : -49 ≤ power
  high : power ≤ 40

/-- The shortest decimal is short. -/
theorem short_shortest {number : Nat} (hfinite : number + 1 < format.infinity) :
    Short number (shortest (number + 1)).1 (shortest (number + 1)).2 := by
  obtain ⟨c, power, hshortest, hc, hlow, hgrid⟩ := exists_shortest_eq number
  obtain ⟨hinside, hnext⟩ := Neighbourhood.of_onGrid?_eq_some _ _ hc
  rw [hshortest]
  refine ⟨(inside_iff number power c).1 hinside, abs_sub_value_le number power hnext, ?_, hlow, by omega⟩
  rcases hgrid with rfl | ⟨-, hnone⟩
  · have hhigh : (2 : ℚ) ^ (format.decode (number + 1)).2 ≤ 2 ^ (104 : Int) :=
      zpow_le_zpow_right₀ (by norm_num) (decode_le hfinite)
    exact (div_le_div_of_nonneg_right hhigh (by norm_num)).trans (by norm_num)
  · exact le_of_onGrid?_eq_none number (power + 1) hnone

namespace Short

variable {number c : Nat} {power : Int} (h : Short number c power)

include h

theorem pos : 0 < c := by
  have hpos := h.encloses.pos
  refine Nat.pos_of_ne_zero ?_
  rintro rfl
  simp at hpos

/-- The digits of a short decimal fit a double. -/
theorem lt_two_pow : c < 2 ^ 53 := by
  have hcoarse := h.coarse
  have hle := h.encloses.le_midpoint.trans (FloatFormat.midpoint_le (number + 1))
  have hbinade : ((2 * format.binade : Nat) : ℚ) = 2 ^ 24 := by
    have : 2 * format.binade = 2 ^ 24 := by decide
    rw [this]
    norm_num
  rw [zpow_add_one₀ (by norm_num)] at hcoarse
  rw [hbinade] at hle
  have hspacing : (0 : ℚ) < 2 ^ (format.decode (number + 1)).2 := by positivity
  have hc : (c : ℚ) * 2 ^ (format.decode (number + 1)).2 ≤ 20 * 2 ^ 24 * 2 ^ (format.decode (number + 1)).2 := by
    have : (c : ℚ) * (2 ^ (format.decode (number + 1)).2 / 2) ≤ c * (10 ^ power * 10) := by gcongr
    linarith
  have : (c : ℚ) < 2 ^ 53 := (le_of_mul_le_mul_right hc hspacing).trans_lt (by norm_num)
  exact_mod_cast this

end Short

end Binary32
end Armature
