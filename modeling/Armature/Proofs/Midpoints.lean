import Mathlib.Data.Nat.Cast.Field
import Mathlib.Tactic.LinearCombination
import Armature.Proofs.NumeralValue

/-!
# Decimals near half way points

The double that is read for a decimal lies on the same side of a half way point between two floats as the decimal, unless
the decimal is very near to the half way point. A shortest decimal seldom is. It lies on a coarse grid: in units of half
the spacing its steps are multiples of a ratio and the half way points are odd integers, so a decimal near a half way point
is a good approximation of the ratio, and all of these are small combinations of two neighbouring approximations that the
Euclidean algorithm finds (`Binary32.Approach.mem_combinations`). So they can be listed for each of the 254 exponents, and
only five half way points are left that a shortest decimal may be near to without being there (`Binary32.near_midpoint`).
-/

namespace Armature.Binary32

/-! ## Approximations of a ratio -/

/-- A ratio of natural numbers. -/
structure Ratio where
  num : Nat
  den : Nat

/-- Some steps of one length next to some steps of another length. -/
structure Approach where
  steps : Int
  halves : Int

namespace Ratio

/-- A ratio in lowest terms. -/
def lowest (num den : Nat) : Ratio := ⟨num / num.gcd den, den / num.gcd den⟩

theorem lowest_spec {num den : Nat} (hnum : 0 < num) (hden : 0 < den) :
    ((lowest num den).num / (lowest num den).den : ℚ) = num / den ∧
      0 < (lowest num den).num ∧ 0 < (lowest num den).den := by
  have hgcd : 0 < num.gcd den := Nat.gcd_pos_of_pos_left _ hnum
  have hgcd' : (num.gcd den : ℚ) ≠ 0 := by exact_mod_cast hgcd.ne'
  refine ⟨?_, Nat.div_pos (Nat.gcd_le_left _ hnum) hgcd, Nat.div_pos (Nat.gcd_le_right _ hden) hgcd⟩
  rw [lowest, Nat.cast_div (Nat.gcd_dvd_left _ _) hgcd', Nat.cast_div (Nat.gcd_dvd_right _ _) hgcd',
    div_div_div_cancel_right₀ hgcd']

/-- No more steps than this end before the last half way point, which is less than two to the power of 25 away. -/
def maxSteps (r : Ratio) : Nat := 2 ^ 25 * r.den / r.num

/-- Critical ends are no further apart than this. -/
def maxGap (r : Ratio) : Nat := (2 ^ 25 - 1) * r.den / (2 ^ 51 - 1)

end Ratio

namespace Approach

/-- How far apart the ends are, if the first steps are as long as the given ratio says. -/
def gap (r : Ratio) (v : Approach) : Int := r.num * v.steps - r.den * v.halves

def combine (x y : Int) (v w : Approach) : Approach := ⟨x * v.steps + y * w.steps, x * v.halves + y * w.halves⟩

def det (v w : Approach) : Int := v.steps * w.halves - w.steps * v.halves

/-- Two neighbouring approximations of a ratio, with at most `bound` steps, found by the Euclidean algorithm. -/
def neighbours (r : Ratio) (bound : Int) : Nat → Approach → Approach → Approach × Approach
  | 0, v, w => (v, w)
  | fuel + 1, v, w =>
    if w.gap r = 0 then (v, w)
    else
      let next := combine 1 ((v.gap r).natAbs / (w.gap r).natAbs : Nat) v w
      if bound < next.steps then (w, combine 1 ((bound - v.steps) / w.steps) v w) else neighbours r bound fuel w next

/-- The integers up to a size. -/
def integers (size : Nat) : List Int := (List.range (2 * size + 1)).map fun (i : Nat) => i - size

/-- How much of the other one of two neighbours can be in a combination that is within the bounds. -/
def share (r : Ratio) (v : Approach) : Nat := (r.maxSteps * (v.gap r).natAbs + r.maxGap * v.steps.natAbs) / r.den

/-- The combinations of two neighbours that may be within the bounds. -/
def combinations (r : Ratio) (v w : Approach) : List Approach :=
  (integers (w.share r)).flatMap fun x => (integers (v.share r)).map fun y => combine x y v w

theorem mem_integers {x : Int} {size : Nat} (h : x.natAbs ≤ size) : x ∈ integers size :=
  List.mem_map.2 ⟨(x + size).toNat, List.mem_range.2 (by omega), by omega⟩

variable {r : Ratio} {u v w : Approach}

/-- Every approach is a combination of two neighbours. -/
theorem eq_combine (hdet : det v w * det v w = 1) : u = combine (det v w * det u w) (det v w * det v u) v w := by
  obtain ⟨steps, halves⟩ := u
  simp only [combine, mk.injEq]
  simp only [det] at hdet ⊢
  constructor
  · linear_combination (-steps) * hdet
  · linear_combination (-halves) * hdet

theorem den_mul_det (r : Ratio) (u w : Approach) : r.den * det u w = w.steps * u.gap r - u.steps * w.gap r := by
  simp only [det, gap]
  ring

theorem natAbs_det_le (hden : 0 < r.den) (hsteps : u.steps.natAbs ≤ r.maxSteps) (hgap : (u.gap r).natAbs ≤ r.maxGap) :
    (det u w).natAbs ≤ w.share r := by
  rw [share, Nat.le_div_iff_mul_le hden]
  have habs := congrArg Int.natAbs (den_mul_det r u w)
  rw [Int.natAbs_mul, Int.natAbs_natCast, mul_comm] at habs
  rw [habs]
  calc (w.steps * u.gap r - u.steps * w.gap r).natAbs
      ≤ (w.steps * u.gap r).natAbs + (u.steps * w.gap r).natAbs := Int.natAbs_sub_le _ _
    _ = w.steps.natAbs * (u.gap r).natAbs + u.steps.natAbs * (w.gap r).natAbs := by
      rw [Int.natAbs_mul, Int.natAbs_mul]
    _ ≤ w.steps.natAbs * r.maxGap + r.maxSteps * (w.gap r).natAbs := by gcongr
    _ = r.maxSteps * (w.gap r).natAbs + r.maxGap * w.steps.natAbs := by ring

/-- Good approximations are small combinations of any two neighbours. -/
theorem mem_combinations (hden : 0 < r.den) (hdet : (det v w).natAbs = 1) (hsteps : u.steps.natAbs ≤ r.maxSteps)
    (hgap : (u.gap r).natAbs ≤ r.maxGap) : u ∈ combinations r v w := by
  have hsquare : det v w * det v w = 1 := by
    rcases Int.natAbs_eq (det v w) with h | h <;> rw [h, hdet] <;> rfl
  have hx := natAbs_det_le (w := w) hden hsteps hgap
  rw [← one_mul (det u w).natAbs, ← hdet, ← Int.natAbs_mul] at hx
  have hy := natAbs_det_le (w := v) hden hsteps hgap
  have hswap : (det u v).natAbs = (det v u).natAbs := by
    rw [← Int.natAbs_neg (det v u)]
    congr 1
    simp only [det]
    ring
  rw [hswap, ← one_mul (det v u).natAbs, ← hdet, ← Int.natAbs_mul] at hy
  rw [eq_combine (u := u) hsquare]
  exact List.mem_flatMap.2 ⟨_, mem_integers hx, List.mem_map.2 ⟨_, mem_integers hy, rfl⟩⟩

end Approach

/-! ## The certificate -/

/-- The lowest power of ten that is not below half the spacing of the values with a given exponent. -/
def finePower (exponent : Int) : Int := ((exponent - 1) * 1233 - 1) / 4096 + 1

/-- That power of ten in units of half the spacing. -/
def fineRatio (exponent : Int) : Ratio :=
  let power := finePower exponent
  .lowest (10 ^ power.toNat * 2 ^ (1 - exponent).toNat) (10 ^ (-power).toNat * 2 ^ (exponent - 1).toNat)

/-- A multiple of the power of ten is so near to a half way point that the double that is read for it may lie on the
    other side. -/
def Critical (exponent : Int) (u : Approach) : Prop :=
  0 < u.halves ∧ u.halves < 2 ^ 25 ∧ u.halves % 2 = 1 ∧ (2 ^ 24 < u.halves ∨ exponent = -149) ∧
    (u.gap (fineRatio exponent)).natAbs * 2 ^ 51 ≤ (fineRatio exponent).num * u.steps
deriving Decidable

/-- The floats below the half way points that decimals on coarse grids are near to without being there. The second one is
    7.038531e-26. -/
def closeHalfways : List Nat := [0x0e42a352, 0x15ae43fd, 0x162e43fd, 0x32dc4bd1, 0x67b8becc]

/-- For the values with a given exponent, decimals are either at a half way point or far away from it, or the critical half
    way points are among those few. The next lower power of ten is below half the spacing, by more than a part in a
    thousand. -/
def Certified (exponent : Int) : Prop :=
  let r := fineRatio exponent
  1001 * r.num < 10000 * r.den ∧
    if r.den < 2 ^ 25 then -22 ≤ finePower exponent ∧ exponent ≤ 52
    else
      let (v, w) := Approach.neighbours r r.maxSteps 60 ⟨0, 1⟩ ⟨1, 0⟩
      (v.det w).natAbs = 1 ∧
      ∀ u ∈ Approach.combinations r v w,
        Critical exponent u → format.encode ((u.halves - 1) / 2).toNat exponent ∈ closeHalfways
deriving Decidable

/-- The exponents of all finite floats. -/
def exponents : List Int := (List.range 254).map fun (i : Nat) => (i : Int) - 149

theorem certified : ∀ exponent ∈ exponents, Certified exponent := by decide +kernel

theorem mem_exponents {exponent : Int} (hlow : -149 ≤ exponent) (hhigh : exponent ≤ 104) : exponent ∈ exponents :=
  List.mem_map.2 ⟨(exponent + 149).toNat, List.mem_range.2 (by omega), by omega⟩

theorem fineRatio_spec (exponent : Int) :
    ((fineRatio exponent).num / (fineRatio exponent).den : ℚ) = 10 ^ finePower exponent / 2 ^ (exponent - 1) ∧
      0 < (fineRatio exponent).num ∧ 0 < (fineRatio exponent).den := by
  obtain ⟨hratio, hpos⟩ :=
    Ratio.lowest_spec (by positivity : 0 < 10 ^ (finePower exponent).toNat * 2 ^ (1 - exponent).toNat)
      (by positivity : 0 < 10 ^ (-finePower exponent).toNat * 2 ^ (exponent - 1).toNat)
  refine ⟨hratio.trans ?_, hpos⟩
  push_cast
  rw [mul_div_mul_comm, zpow_toNat_div, ← neg_sub exponent 1, ← one_div_div, zpow_toNat_div, mul_one_div]

/-! ## Decimals as approaches -/

/-- A multiple of a power of ten next to a half way point. -/
def approach (exponent power : Int) (c significand : Nat) : Approach :=
  ⟨(c * 10 ^ (power - finePower exponent).toNat : Nat), (2 * significand + 1 : Nat)⟩

/-- What a gap of one is between numbers. -/
def gapUnit (exponent : Int) : ℚ := 2 ^ (exponent - 1) / (fineRatio exponent).den

section

variable {exponent power : Int} {c significand : Nat}

theorem num_mul_gapUnit (exponent : Int) : (fineRatio exponent).num * gapUnit exponent = 10 ^ finePower exponent := by
  obtain ⟨hratio, -, -⟩ := fineRatio_spec exponent
  rw [gapUnit, mul_div_left_comm, hratio, mul_div_cancel₀ _ (by positivity)]

theorem den_mul_gapUnit (exponent : Int) : (fineRatio exponent).den * gapUnit exponent = 2 ^ (exponent - 1) := by
  have hden : ((fineRatio exponent).den : ℚ) ≠ 0 := by exact_mod_cast (fineRatio_spec exponent).2.2.ne'
  rw [gapUnit, mul_div_cancel₀ _ hden]

theorem gapUnit_pos (exponent : Int) : 0 < gapUnit exponent := by
  have hden : (0 : ℚ) < (fineRatio exponent).den := by exact_mod_cast (fineRatio_spec exponent).2.2
  exact div_pos (by positivity) hden

theorem decimal_eq (hpower : finePower exponent ≤ power) :
    (c * 10 ^ power : ℚ) =
      (fineRatio exponent).num * (approach exponent power c significand).steps * gapUnit exponent := by
  have hsteps : (((approach exponent power c significand).steps : Int) : ℚ) =
      c * 10 ^ (power - finePower exponent).toNat := by
    simp [approach]
  obtain ⟨coarser, rfl⟩ := Int.le.dest hpower
  rw [mul_right_comm, num_mul_gapUnit, hsteps, add_sub_cancel_left, Int.toNat_natCast, zpow_add₀ (by norm_num),
    zpow_natCast, mul_left_comm]

theorem halfway_eq : ((significand + 1 / 2) * 2 ^ exponent : ℚ) =
    (fineRatio exponent).den * (approach exponent power c significand).halves * gapUnit exponent := by
  have hhalves : (((approach exponent power c significand).halves : Int) : ℚ) = 2 * significand + 1 := by
    simp [approach]
  rw [mul_right_comm, den_mul_gapUnit, hhalves, zpow_sub_one₀ (by norm_num)]
  ring

theorem sub_eq_gap (hpower : finePower exponent ≤ power) :
    (c * 10 ^ power - (significand + 1 / 2) * 2 ^ exponent : ℚ) =
      ((approach exponent power c significand).gap (fineRatio exponent) : Int) * gapUnit exponent := by
  rw [decimal_eq hpower, halfway_eq, Approach.gap]
  push_cast
  ring

/-- A decimal near to a half way point, on a coarse grid, makes a critical approach. -/
theorem critical_approach (hfits : format.Fits significand exponent) (hpower : finePower exponent ≤ power)
    (hnear : |(c * 10 ^ power - (significand + 1 / 2) * 2 ^ exponent : ℚ)| * 2 ^ 51 ≤ c * 10 ^ power) :
    Critical exponent (approach exponent power c significand) := by
  have hlt : significand < 2 ^ 24 := hfits.lt
  have hhalves : (approach exponent power c significand).halves = 2 * significand + 1 := by simp [approach]
  refine ⟨by omega, by omega, by omega, hfits.normal.imp_left fun hnormal => ?_, ?_⟩
  · have : 2 ^ 23 ≤ significand := hnormal
    omega
  · rw [sub_eq_gap hpower, abs_mul, abs_of_pos (gapUnit_pos exponent), decimal_eq hpower, mul_right_comm,
      mul_le_mul_iff_left₀ (gapUnit_pos exponent)] at hnear
    rw [Int.natCast_natAbs]
    exact_mod_cast hnear

/-- A decimal at a half way point whose exponent is not too high has a low power of ten. -/
theorem power_le_of_eq (hfits : format.Fits significand exponent) (hexponent : exponent ≤ 52)
    (heq : (c * 10 ^ power : ℚ) = (significand + 1 / 2) * 2 ^ exponent) : power ≤ 22 := by
  by_contra hlarge
  have hc : (1 : ℚ) ≤ c := by
    refine Nat.one_le_cast.2 (Nat.pos_of_ne_zero ?_)
    rintro rfl
    rw [Nat.cast_zero, zero_mul] at heq
    exact absurd heq (by positivity)
  have hsignificand : (significand + 1 / 2 : ℚ) ≤ 2 ^ 24 := by
    have hlt : significand < 2 ^ 24 := hfits.lt
    have : (significand + 1 : ℚ) ≤ 2 ^ 24 := by exact_mod_cast hlt
    linarith
  have hrange : (10 : ℚ) ^ (23 : Int) ≤ 2 ^ 24 * 2 ^ (52 : Int) := by
    calc (10 : ℚ) ^ (23 : Int) ≤ 10 ^ power := zpow_le_zpow_right₀ (by norm_num) (by omega)
      _ ≤ c * 10 ^ power := le_mul_of_one_le_left (by positivity) hc
      _ = (significand + 1 / 2) * 2 ^ exponent := heq
      _ ≤ 2 ^ 24 * 2 ^ (52 : Int) := by
        gcongr
        norm_num
  norm_num at hrange

end

namespace Approach

variable {r : Ratio} {u : Approach}

/-- The bounds of an approach whose ends are very close, up to a number of steps of the second kind. -/
theorem bounds_of_gap_le (hnum : 0 < r.num) (hhalves : u.halves < 2 ^ 25)
    (hgap : ((u.gap r).natAbs * 2 ^ 51 : Int) ≤ r.num * u.steps) :
    (u.gap r).natAbs * (2 ^ 51 - 1) ≤ (2 ^ 25 - 1) * r.den ∧ u.steps.natAbs ≤ r.maxSteps := by
  have hdefinition : u.gap r = r.num * u.steps - r.den * u.halves := rfl
  have hself : u.gap r ≤ (u.gap r).natAbs := Int.le_natAbs
  have hhalves : u.halves ≤ 33554431 := by omega
  have hproduct : (r.den : Int) * u.halves ≤ r.den * 33554431 := mul_le_mul_of_nonneg_left hhalves (by positivity)
  generalize (u.gap r).natAbs = size at *
  have hsteps : 0 ≤ u.steps := by
    have hzero : (0 : Int) ≤ size * 2 ^ 51 := mul_nonneg (Int.natCast_nonneg size) (by norm_num)
    exact nonneg_of_mul_nonneg_right (hzero.trans hgap) (by exact_mod_cast hnum)
  constructor
  · zify
    norm_num
    linarith
  · rw [Ratio.maxSteps, Nat.le_div_iff_mul_le hnum]
    zify
    rw [abs_of_nonneg hsteps]
    linarith

/-- Ends that differ by less than one unit of both lengths are at the same place. -/
theorem gap_eq_zero (hden : r.den < 2 ^ 25) (hsize : (u.gap r).natAbs * (2 ^ 51 - 1) ≤ (2 ^ 25 - 1) * r.den) :
    u.gap r = 0 := by
  have hless : (u.gap r).natAbs * (2 ^ 51 - 1) < 2 ^ 51 - 1 := by omega
  rw [← Int.natAbs_eq_zero]
  omega

end Approach

section

variable {number c : Nat} {power : Int} (hfinite : number < format.infinity)
  (hnext : |c * 10 ^ power - format.value number| ≤ 10 ^ power ∨
    |c * 10 ^ power - format.value (number + 1)| ≤ 10 ^ power)
  (hnear : |c * 10 ^ power - format.midpoint number| * 2 ^ 51 ≤ c * 10 ^ power)

include hfinite hnext hnear

/-- If a decimal is near to a half way point and no more than a step of its grid away from a value on one side of it, then
    the steps are not much shorter than the way from the value to the half way point. -/
theorem finePower_le : finePower (format.decode number).2 ≤ power := by
  have hvalue := format.midpoint_sub_value number
  have hsucc := format.value_succ_sub_midpoint number
  have hmidpoint := format.midpoint_le number
  have hbinade : ((2 * format.binade : Nat) : ℚ) = 2 ^ 24 := by
    have : 2 * format.binade = 2 ^ 24 := by decide
    rw [this]
    norm_num
  rw [hbinade] at hmidpoint
  have hlow : -149 ≤ (format.decode number).2 := minExponent_le_decode number
  obtain ⟨hfine, -⟩ := certified _ (mem_exponents hlow (decode_le hfinite))
  generalize (format.decode number).2 = exponent at *
  have hcoarse : (1000 : ℚ) * 2 ^ (exponent - 1) ≤ 1001 * 10 ^ power := by
    rw [zpow_sub_one₀ (by norm_num)]
    have h₁ := neg_abs_le (c * 10 ^ power - format.midpoint number)
    have h₂ := le_abs_self (c * 10 ^ power - format.midpoint number)
    rcases hnext with h | h
    · have h₃ := neg_abs_le (c * 10 ^ power - format.value number)
      have h₄ := le_abs_self (c * 10 ^ power - format.value number)
      linarith
    · have h₃ := neg_abs_le (c * 10 ^ power - format.value (number + 1))
      linarith
  have hfine : (1001 : ℚ) * 10 ^ finePower exponent < 10000 * 2 ^ (exponent - 1) := by
    have hcast : (1001 * (fineRatio exponent).num : ℚ) < 10000 * (fineRatio exponent).den := by exact_mod_cast hfine
    have := mul_lt_mul_of_pos_right hcast (gapUnit_pos exponent)
    rw [← num_mul_gapUnit, ← den_mul_gapUnit]
    linarith
  have hlt : (10 : ℚ) ^ finePower exponent < 10 ^ (power + 1) := by
    rw [zpow_add_one₀ (by norm_num)]
    linarith
  have := (zpow_lt_zpow_iff_right₀ (by norm_num : (1 : ℚ) < 10)).1 hlt
  omega

/-- A decimal that is very near to a half way point, and no more than a step of its grid away from a value on one side of
    it, is at the half way point, with a low power of ten, or the half way point is one of five. -/
theorem near_midpoint :
    ((c * 10 ^ power : ℚ) = format.midpoint number ∧ -22 ≤ power ∧ power ≤ 22) ∨ number ∈ closeHalfways := by
  have hpower := finePower_le hfinite hnext hnear
  have hencode := format.encode_decode number
  have hfits := format.fits_decode number
  have hmax := decode_le hfinite
  rw [FloatFormat.midpoint] at hnear ⊢
  generalize (format.decode number).1 = significand at *
  generalize (format.decode number).2 = exponent at *
  obtain ⟨-, hcertified⟩ := certified exponent (mem_exponents hfits.minExponent_le hmax)
  obtain ⟨-, hnum, hden⟩ := fineRatio_spec exponent
  have hcritical := critical_approach hfits hpower hnear
  obtain ⟨hsize, hsteps⟩ := Approach.bounds_of_gap_le hnum hcritical.2.1 hcritical.2.2.2.2
  split at hcertified
  · next hsmall =>
    left
    have heq : (c * 10 ^ power : ℚ) = (significand + 1 / 2) * 2 ^ exponent := by
      rw [← sub_eq_zero, sub_eq_gap hpower, Approach.gap_eq_zero hsmall hsize, Int.cast_zero, zero_mul]
    exact ⟨heq, by omega, power_le_of_eq hfits hcertified.2 heq⟩
  · right
    generalize Approach.neighbours (fineRatio exponent) (fineRatio exponent).maxSteps 60 ⟨0, 1⟩ ⟨1, 0⟩ = neighbours
      at hcertified
    obtain ⟨hdet, hall⟩ := hcertified
    have hmem := Approach.mem_combinations hden hdet hsteps ((Nat.le_div_iff_mul_le (by norm_num)).2 hsize)
    have hclose := hall _ hmem hcritical
    have hsignificand : (((approach exponent power c significand).halves - 1) / 2).toNat = significand := by
      simp only [approach]
      omega
    rwa [hsignificand, hencode] at hclose

end

end Armature.Binary32
