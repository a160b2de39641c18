import Mathlib.Algebra.Order.Field.Power
import Mathlib.Algebra.Order.Floor.Semifield
import Mathlib.Data.Nat.Cast.Order.Field
import Mathlib.Data.Rat.Floor
import Mathlib.Tactic.FieldSimp
import Mathlib.Tactic.Linarith
import Mathlib.Tactic.Positivity
import Mathlib.Tactic.Ring
import Armature.Number.FloatFormat

/-!
# Rounding

The numbers of a format stand for an increasing sequence of rational values (`FloatFormat.value`), and rounding takes a
ratio to the number of the value next to it, on the side of the half way point where the ratio lies
(`FloatFormat.nearest_cases`). So a ratio between the half way points on either side of a value rounds to the value
(`FloatFormat.nearest_eq`), a ratio that the format has is not changed (`FloatFormat.value_nearest_of_eq`), and the error
of any other one is a small part of it (`FloatFormat.abs_value_nearest_sub_le`).
-/

namespace Armature

theorem cast_shiftLeft (n k : Nat) : ((n <<< k : Nat) : ℚ) = n * 2 ^ k := by
  rw [Nat.shiftLeft_eq]
  push_cast
  rfl

theorem shiftLeft_pos {n : Nat} (h : 0 < n) (k : Nat) : 0 < n <<< k := by
  rw [Nat.shiftLeft_eq]
  positivity

/-- Both ways of moving a power into a ratio of natural numbers. -/
theorem zpow_toNat_div (b : ℚ) (e : Int) : b ^ e.toNat / b ^ (-e).toNat = b ^ e := by
  rcases Int.le_total 0 e with h | h
  · rw [Int.toNat_of_nonpos (by omega : -e ≤ 0), pow_zero, div_one, ← zpow_natCast, Int.toNat_of_nonneg h]
  · rw [Int.toNat_of_nonpos h, pow_zero, ← zpow_natCast, Int.toNat_of_nonneg (by omega), zpow_neg, one_div, inv_inv]

/-- A comparison with a power of two, as it is made on natural numbers. -/
theorem shiftLeft_le_shiftLeft (num : Nat) {den : Nat} (hden : 0 < den) (e : Int) :
    den <<< e.toNat ≤ num <<< (-e).toNat ↔ (2 : ℚ) ^ e ≤ num / den := by
  have hpos : (0 : ℚ) < den := by exact_mod_cast hden
  rw [le_div_iff₀ hpos, ← zpow_toNat_div 2 e, div_mul_eq_mul_div, div_le_iff₀ (by positivity), mul_comm ((2 : ℚ) ^ _) (den : ℚ),
    ← cast_shiftLeft, ← cast_shiftLeft, Nat.cast_le]

/-- A ratio in units of a power of two, as a ratio of natural numbers. -/
theorem div_eq_shiftLeft_div (num : Nat) {den : Nat} (hden : 0 < den) (e : Int) :
    (num / den : ℚ) = (num <<< (-e).toNat : Nat) / (den <<< e.toNat : Nat) * 2 ^ e := by
  have hpos : (den : ℚ) ≠ 0 := by exact_mod_cast hden.ne'
  rw [cast_shiftLeft, cast_shiftLeft, ← zpow_toNat_div 2 e]
  field_simp

/-- A quotient is rounded to the side of the half way point on which it lies. -/
theorem divNearest_cases (n : Nat) {d : Nat} (hd : 0 < d) :
    ((n / d : ℚ) < (n / d : Nat) + 1 / 2 → divNearest n d = n / d) ∧
    ((n / d : Nat) + 1 / 2 < (n / d : ℚ) → divNearest n d = n / d + 1) ∧
    ((n / d : ℚ) = (n / d : Nat) + 1 / 2 → divNearest n d = n / d + n / d % 2) := by
  have hpos : (0 : ℚ) < d := by exact_mod_cast hd
  have hquotient : (n / d : ℚ) = (n / d : Nat) + (n % d : Nat) / d := by
    rw [div_eq_iff hpos.ne', add_mul, div_mul_cancel₀ _ hpos.ne', mul_comm]
    exact_mod_cast (Nat.div_add_mod n d).symm
  rw [hquotient]
  unfold divNearest
  refine ⟨fun h => ?_, fun h => ?_, fun h => ?_⟩
  · rw [add_lt_add_iff_left, div_lt_div_iff₀ hpos two_pos, one_mul] at h
    have hless : 2 * (n % d) < d := by
      rw [mul_comm]
      exact_mod_cast h
    rw [Nat.compare_eq_lt.2 hless]
  · rw [add_lt_add_iff_left, div_lt_div_iff₀ two_pos hpos, one_mul] at h
    have hgreater : d < 2 * (n % d) := by
      rw [mul_comm]
      exact_mod_cast h
    rw [Nat.compare_eq_gt.2 hgreater]
  · rw [add_right_inj, div_eq_div_iff hpos.ne' two_ne_zero, one_mul] at h
    have hequal : 2 * (n % d) = d := by
      rw [mul_comm]
      exact_mod_cast h
    rw [Nat.compare_eq_eq.2 hequal]

/-- The greatest power of two that is not above a ratio. -/
theorem floorLog2_spec {num den : Nat} (hnum : 0 < num) (hden : 0 < den) :
    (2 : ℚ) ^ floorLog2 num den ≤ num / den ∧ (num / den : ℚ) < 2 ^ (floorLog2 num den + 1) := by
  have hn : (2 : ℚ) ^ num.log2 ≤ num := by exact_mod_cast Nat.log2_self_le hnum.ne'
  have hn' : (num : ℚ) < 2 ^ (num.log2 + 1) := by exact_mod_cast Nat.lt_log2_self
  have hd : (2 : ℚ) ^ den.log2 ≤ den := by exact_mod_cast Nat.log2_self_le hden.ne'
  have hd' : (den : ℚ) < 2 ^ (den.log2 + 1) := by exact_mod_cast Nat.lt_log2_self
  have hpos : (0 : ℚ) < den := by exact_mod_cast hden
  have hquotient (a b : Nat) : (2 : ℚ) ^ a / 2 ^ b = 2 ^ ((a : Int) - b) := by
    rw [zpow_sub₀ (by norm_num), zpow_natCast, zpow_natCast]
  have hupper : (num / den : ℚ) < 2 ^ ((num.log2 : Int) - den.log2 + 1) := by
    calc (num / den : ℚ) < 2 ^ (num.log2 + 1) / 2 ^ den.log2 := div_lt_div₀ hn' hd (by positivity) (by positivity)
      _ = 2 ^ ((num.log2 : Int) - den.log2 + 1) := by
        rw [hquotient]
        congr 1
        push_cast
        ring
  have hlower : (2 : ℚ) ^ ((num.log2 : Int) - den.log2 - 1) ≤ num / den := by
    calc (2 : ℚ) ^ ((num.log2 : Int) - den.log2 - 1) = 2 ^ num.log2 / 2 ^ (den.log2 + 1) := by
          rw [hquotient]
          congr 1
          push_cast
          ring
      _ ≤ num / den := div_le_div₀ (by positivity) hn hpos hd'.le
  have hcompare := shiftLeft_le_shiftLeft num hden (num.log2 - den.log2)
  unfold floorLog2
  simp only
  split
  · next h => exact ⟨hcompare.1 h, hupper⟩
  · next h =>
    rw [sub_add_cancel]
    exact ⟨hlower, not_le.1 (mt hcompare.2 h)⟩

namespace FloatFormat

variable (f : FloatFormat)

/-! ## Values -/

/-- The rational number with the given number in the format. -/
def value (number : Nat) : ℚ := (f.decode number).1 * 2 ^ (f.decode number).2

/-- What lies half way from the value with the given number to the next one. -/
def midpoint (number : Nat) : ℚ := ((f.decode number).1 + 1 / 2) * 2 ^ (f.decode number).2

/-- A significand and an exponent of two that a value has in the format: the leading bit is set, as far as the exponent
    allows. -/
structure Fits (significand : Nat) (exponent : Int) : Prop where
  minExponent_le : f.minExponent ≤ exponent
  lt : significand < 2 * f.binade
  normal : f.binade ≤ significand ∨ exponent = f.minExponent

/-- The number of the value with the given significand and exponent. -/
def encode (significand : Nat) (exponent : Int) : Nat :=
  (exponent - f.minExponent).toNat * f.binade + significand

theorem binade_pos : 0 < f.binade := by
  rw [binade, Nat.shiftLeft_eq, one_mul]
  positivity

variable {f}

theorem fits_decode (number : Nat) : f.Fits (f.decode number).1 (f.decode number).2 := by
  have hmod := Nat.mod_lt number f.binade_pos
  unfold decode
  simp only
  split
  · exact ⟨le_refl _, by omega, .inr rfl⟩
  · next h =>
    have hfield : 1 ≤ number / f.binade := Nat.one_le_iff_ne_zero.2 h
    exact ⟨by omega, by omega, .inl (by omega)⟩

theorem decode_mul_add {field fraction : Nat} (h : fraction < f.binade) :
    f.decode (field * f.binade + fraction) =
      if field = 0 then (fraction, f.minExponent) else (fraction + f.binade, f.minExponent + (field - 1)) := by
  have hdiv : (field * f.binade + fraction) / f.binade = field := by
    rw [mul_comm, Nat.mul_add_div f.binade_pos, Nat.div_eq_of_lt h, add_zero]
  have hmod : (field * f.binade + fraction) % f.binade = fraction := by
    rw [mul_comm, Nat.mul_add_mod, Nat.mod_eq_of_lt h]
  rw [decode, hdiv, hmod]

theorem decode_encode {significand : Nat} {exponent : Int} (h : f.Fits significand exponent) :
    f.decode (f.encode significand exponent) = (significand, exponent) := by
  obtain ⟨hmin, hlt, hnormal⟩ := h
  rcases Nat.lt_or_ge significand f.binade with hsmall | hlarge
  · have hexponent : exponent = f.minExponent := hnormal.resolve_left (by omega)
    rw [encode, decode_mul_add hsmall, hexponent, sub_self]
    rfl
  · have hcarry : f.encode significand exponent =
        ((exponent - f.minExponent).toNat + 1) * f.binade + (significand - f.binade) := by
      rw [encode, Nat.succ_mul]
      omega
    rw [hcarry, decode_mul_add (by omega), if_neg (Nat.succ_ne_zero _)]
    congr 1 <;> omega

theorem encode_decode (number : Nat) : f.encode (f.decode number).1 (f.decode number).2 = number := by
  have hdiv := Nat.div_add_mod number f.binade
  unfold decode encode
  simp only
  split
  · next h =>
    simp only [h, mul_zero, zero_add] at hdiv
    simp [hdiv]
  · next h =>
    obtain ⟨field, hfield⟩ := Nat.exists_eq_succ_of_ne_zero h
    rw [hfield, Nat.mul_succ] at hdiv
    simp only [hfield]
    have hshift : (f.minExponent + ((field.succ : Nat) - 1 : Int) - f.minExponent).toNat = field := by
      push_cast
      omega
    rw [hshift, mul_comm field]
    omega

/-- A significand may also be one too large: then the value is the first one with the next exponent. -/
theorem value_encode {significand : Nat} {exponent : Int} (hmin : f.minExponent ≤ exponent)
    (hle : significand ≤ 2 * f.binade) (hnormal : f.binade ≤ significand ∨ exponent = f.minExponent) :
    f.value (f.encode significand exponent) = significand * 2 ^ exponent := by
  have hpos := f.binade_pos
  rcases hle.lt_or_eq with hlt | heq
  · rw [value, decode_encode ⟨hmin, hlt, hnormal⟩]
  · have hcarry : f.encode significand exponent = f.encode f.binade (exponent + 1) := by
      obtain ⟨steps, hsteps⟩ := Int.le.dest hmin
      simp only [encode, heq, ← hsteps]
      have h₁ : (f.minExponent + steps - f.minExponent).toNat = steps := by omega
      have h₂ : (f.minExponent + steps + 1 - f.minExponent).toNat = steps + 1 := by omega
      rw [h₁, h₂]
      ring
    rw [hcarry, value, decode_encode ⟨by omega, by omega, .inl (le_refl _)⟩, heq, zpow_add_one₀ (by norm_num)]
    push_cast
    ring

theorem value_succ (number : Nat) :
    f.value (number + 1) = ((f.decode number).1 + 1) * 2 ^ (f.decode number).2 := by
  obtain ⟨hmin, hlt, hnormal⟩ := f.fits_decode number
  have hsucc : number + 1 = f.encode ((f.decode number).1 + 1) (f.decode number).2 := by
    conv_lhs => rw [← f.encode_decode number]
    rfl
  rw [hsucc, value_encode hmin (by omega) (hnormal.imp_left (by omega))]
  push_cast
  rfl

theorem value_zero : f.value 0 = 0 := by
  simp [value, decode]

/-- Half way points are odd multiples of half the spacing. -/
theorem midpoint_eq (number : Nat) :
    f.midpoint number = (2 * (f.decode number).1 + 1 : Nat) * 2 ^ ((f.decode number).2 - 1) := by
  rw [midpoint, zpow_sub_one₀ (by norm_num)]
  push_cast
  ring

theorem midpoint_sub_value (number : Nat) :
    f.midpoint number - f.value number = 2 ^ (f.decode number).2 / 2 := by
  rw [value, midpoint]
  ring

theorem value_succ_sub_midpoint (number : Nat) :
    f.value (number + 1) - f.midpoint number = 2 ^ (f.decode number).2 / 2 := by
  rw [value_succ, midpoint]
  ring

theorem value_lt_midpoint (number : Nat) : f.value number < f.midpoint number := by
  rw [← sub_pos, midpoint_sub_value]
  positivity

theorem midpoint_lt_value_succ (number : Nat) : f.midpoint number < f.value (number + 1) := by
  rw [← sub_pos, value_succ_sub_midpoint]
  positivity

theorem midpoint_pos (number : Nat) : 0 < f.midpoint number := by
  rw [midpoint]
  positivity

theorem midpoint_le (number : Nat) : f.midpoint number ≤ (2 * f.binade : Nat) * 2 ^ (f.decode number).2 := by
  have hlt : ((f.decode number).1 + 1 : ℚ) ≤ (2 * f.binade : Nat) := by exact_mod_cast (f.fits_decode number).lt
  rw [midpoint]
  gcongr
  linarith

/-- The value in front of a given one has the same exponent, except in front of a power of two. -/
theorem decode_pred (number : Nat) :
    if (number + 1) % f.binade = 0 ∧ f.binade < number + 1 then
      (f.decode (number + 1)).1 = f.binade ∧
        f.decode number = (2 * f.binade - 1, (f.decode (number + 1)).2 - 1)
    else
      0 < (f.decode (number + 1)).1 ∧
        f.decode number = ((f.decode (number + 1)).1 - 1, (f.decode (number + 1)).2) := by
  have hpos := f.binade_pos
  have hrest := Nat.mod_lt (number + 1) hpos
  obtain ⟨field, fraction, hfraction, hnumber⟩ :
      ∃ field fraction, fraction < f.binade ∧ number + 1 = field * f.binade + fraction :=
    ⟨_, _, hrest, (Nat.div_add_mod' _ _).symm⟩
  have hmod : (number + 1) % f.binade = fraction := by
    rw [hnumber, mul_comm, Nat.mul_add_mod, Nat.mod_eq_of_lt hfraction]
  rw [hmod]
  cases fraction with
  | succ fraction =>
    have hpred : number = field * f.binade + fraction := by omega
    rw [if_neg (by omega), hnumber, decode_mul_add hfraction, hpred, decode_mul_add (by omega)]
    split
    · exact ⟨by omega, rfl⟩
    · exact ⟨by omega, by simp only []; congr 1; omega⟩
  | zero =>
    obtain ⟨field, rfl⟩ : ∃ k, field = k + 1 := by
      refine Nat.exists_eq_succ_of_ne_zero ?_
      rintro rfl
      omega
    have hpred : number = field * f.binade + (f.binade - 1) := by
      rw [Nat.succ_mul] at hnumber
      omega
    rw [hnumber, decode_mul_add hpos, if_neg (Nat.succ_ne_zero field), hpred, decode_mul_add (by omega)]
    cases field with
    | zero =>
      rw [if_neg (by omega)]
      exact ⟨by omega, by simp⟩
    | succ field =>
      have hlarge : f.binade < (field + 1 + 1) * f.binade + 0 := by nlinarith
      rw [if_pos ⟨rfl, hlarge⟩, if_neg (Nat.succ_ne_zero field)]
      refine ⟨by omega, ?_⟩
      congr 1
      · omega
      · push_cast
        ring

theorem value_strictMono : StrictMono f.value :=
  strictMono_nat_of_lt_succ fun number => (value_lt_midpoint number).trans (midpoint_lt_value_succ number)

/-! ## Rounding -/

section

variable {num den : Nat}

/-- The exponent of the spacing around a ratio is that of the values of which one is the last that is not above the
    ratio. -/
theorem spacing_spec (hprecision : 0 < f.precision) (hnum : 0 < num) (hden : 0 < den) :
    f.minExponent ≤ f.spacing num den ∧ (num / den : ℚ) < (2 * f.binade : Nat) * 2 ^ f.spacing num den ∧
      ((f.binade : ℚ) * 2 ^ f.spacing num den ≤ num / den ∨ f.spacing num den = f.minExponent) := by
  obtain ⟨hlower, hupper⟩ := floorLog2_spec hnum hden
  have hbinade : (f.binade : ℚ) = 2 ^ ((f.precision : Int) - 1) := by
    rw [binade, cast_shiftLeft, Nat.cast_one, one_mul, ← zpow_natCast]
    congr 1
    omega
  unfold spacing
  refine ⟨le_max_right _ _, ?_, ?_⟩
  · have hle : floorLog2 num den + 1 ≤ 1 + ((f.precision : Int) - 1) +
        max (floorLog2 num den + 1 - f.precision) f.minExponent := by omega
    calc (num / den : ℚ) < 2 ^ (floorLog2 num den + 1) := hupper
      _ ≤ 2 ^ (1 + ((f.precision : Int) - 1) + max (floorLog2 num den + 1 - f.precision) f.minExponent) :=
        zpow_le_zpow_right₀ (by norm_num) hle
      _ = _ := by
        rw [zpow_add₀ (by norm_num), zpow_add₀ (by norm_num), zpow_one, ← hbinade]
        push_cast
        rfl
  · rcases Int.le_total (floorLog2 num den + 1 - f.precision) f.minExponent with h | h
    · exact .inr (max_eq_right h)
    · rw [max_eq_left h, hbinade, ← zpow_add₀ (by norm_num)]
      have : (f.precision : Int) - 1 + (floorLog2 num den + 1 - f.precision) = floorLog2 num den := by ring
      rw [this]
      exact .inl hlower

/-- The number of the last value that is not above a ratio. -/
def below (f : FloatFormat) (num den : Nat) : Nat :=
  let e := f.spacing num den
  f.encode ((num <<< (-e).toNat) / (den <<< e.toNat)) e

theorem encode_mod_two (hprecision : 2 ≤ f.precision) (significand : Nat) (exponent : Int) :
    f.encode significand exponent % 2 = significand % 2 := by
  have heven : f.binade = 2 * 2 ^ (f.precision - 2) := by
    rw [binade, Nat.shiftLeft_eq, one_mul, ← pow_succ']
    congr 1
    omega
  rw [encode, heven, mul_left_comm]
  omega

/-- The whole part of a ratio in units of the spacing is a significand. -/
theorem fits_spacing (hprecision : 0 < f.precision) (hnum : 0 < num) (hden : 0 < den) :
    let e := f.spacing num den
    f.Fits ((num <<< (-e).toNat) / (den <<< e.toNat)) e := by
  intro e
  obtain ⟨hmin, hupper, hnormal⟩ := f.spacing_spec hprecision hnum hden
  have hunit : (0 : ℚ) < 2 ^ e := by positivity
  have hd : 0 < den <<< e.toNat := shiftLeft_pos hden _
  have hd' : (0 : ℚ) < (den <<< e.toNat : Nat) := by exact_mod_cast hd
  rw [div_eq_shiftLeft_div num hden e] at hupper hnormal
  refine ⟨hmin, ?_, hnormal.imp_left fun h => ?_⟩
  · rw [Nat.div_lt_iff_lt_mul hd]
    have := (div_lt_iff₀ hd').1 (lt_of_mul_lt_mul_right hupper hunit.le)
    exact_mod_cast this
  · rw [Nat.le_div_iff_mul_le hd]
    have := (le_div_iff₀ hd').1 (le_of_mul_le_mul_right h hunit)
    exact_mod_cast this

/-- A positive ratio lies between two neighbouring values, and is rounded to the nearer one of them; half way between
    them, to the one with the even number. -/
theorem nearest_cases (hprecision : 2 ≤ f.precision) (hnum : 0 < num) (hden : 0 < den) :
    ((f.decode (f.below num den)).2 = f.spacing num den ∧
      f.value (f.below num den) ≤ num / den ∧ (num / den : ℚ) < f.value (f.below num den + 1)) ∧
    ((num / den : ℚ) < f.midpoint (f.below num den) → f.nearest num den = min (f.below num den) f.infinity) ∧
    (f.midpoint (f.below num den) < (num / den : ℚ) → f.nearest num den = min (f.below num den + 1) f.infinity) ∧
    ((num / den : ℚ) = f.midpoint (f.below num den) →
      f.nearest num den = min (f.below num den + f.below num den % 2) f.infinity) := by
  have hdecode : f.decode (f.below num den) = (_, f.spacing num den) :=
    decode_encode (f.fits_spacing (by omega) hnum hden)
  have hratio := div_eq_shiftLeft_div num hden (f.spacing num den)
  have hnearest : f.nearest num den =
      min (f.encode (divNearest (num <<< (-f.spacing num den).toNat) (den <<< (f.spacing num den).toNat))
        (f.spacing num den)) f.infinity := by
    rw [nearest, if_neg hnum.ne']
    rfl
  rw [midpoint, value, value_succ, hdecode, hratio, hnearest]
  unfold below
  simp only
  have hd : 0 < den <<< (f.spacing num den).toNat := shiftLeft_pos hden _
  generalize f.spacing num den = e at *
  generalize num <<< (-e).toNat = n at *
  generalize den <<< e.toNat = d at *
  have hunit : (0 : ℚ) < 2 ^ e := by positivity
  obtain ⟨hdown, hup, htie⟩ := divNearest_cases n hd
  refine ⟨⟨trivial, ?_, ?_⟩, fun h => ?_, fun h => ?_, fun h => ?_⟩
  · exact mul_le_mul_of_nonneg_right Nat.cast_div_le hunit.le
  · rw [mul_lt_mul_iff_left₀ hunit, ← Nat.floor_div_eq_div (K := ℚ)]
    exact Nat.lt_floor_add_one _
  · rw [hdown (lt_of_mul_lt_mul_right h hunit.le)]
  · rw [hup (lt_of_mul_lt_mul_right h hunit.le)]
    rfl
  · rw [htie (mul_right_cancel₀ hunit.ne' h), encode_mod_two hprecision]
    simp only [encode, Nat.add_assoc]

/-- A number lies around the value behind the one with the given number: between the half way points on either side, and
    at one of them only if the value has an even number. -/
structure Encloses (f : FloatFormat) (number : Nat) (x : ℚ) : Prop where
  lower : f.midpoint number < x ∨ f.midpoint number = x ∧ number % 2 = 1
  upper : x < f.midpoint (number + 1) ∨ x = f.midpoint (number + 1) ∧ number % 2 = 1

namespace Encloses

variable {number : Nat} {x : ℚ} (h : f.Encloses number x)

include h

theorem midpoint_le : f.midpoint number ≤ x := h.lower.elim le_of_lt fun heq => heq.1.le

theorem le_midpoint : x ≤ f.midpoint (number + 1) := h.upper.elim le_of_lt fun heq => heq.1.le

theorem pos : 0 < x := (midpoint_pos number).trans_le h.midpoint_le

end Encloses

theorem encloses_iff_of_odd {number : Nat} {x : ℚ} (hodd : number % 2 = 1) :
    f.Encloses number x ↔ f.midpoint number ≤ x ∧ x ≤ f.midpoint (number + 1) := by
  constructor
  · intro h
    exact ⟨h.midpoint_le, h.le_midpoint⟩
  · rintro ⟨hlower, hupper⟩
    exact ⟨hlower.lt_or_eq.imp_right (⟨·, hodd⟩), hupper.lt_or_eq.imp_right (⟨·, hodd⟩)⟩

theorem encloses_iff_of_even {number : Nat} {x : ℚ} (heven : ¬ number % 2 = 1) :
    f.Encloses number x ↔ f.midpoint number < x ∧ x < f.midpoint (number + 1) := by
  constructor
  · intro h
    exact ⟨h.lower.resolve_right fun heq => heven heq.2, h.upper.resolve_right fun heq => heven heq.2⟩
  · rintro ⟨hlower, hupper⟩
    exact ⟨.inl hlower, .inl hupper⟩

/-- A ratio around a value rounds to the value. -/
theorem nearest_eq (hprecision : 2 ≤ f.precision) (hnum : 0 < num) (hden : 0 < den) {number : Nat}
    (hnumber : number + 1 < f.infinity) (h : f.Encloses number (num / den)) : f.nearest num den = number + 1 := by
  obtain ⟨⟨-, hle, hlt⟩, hdown, hup, htie⟩ := nearest_cases hprecision hnum hden
  have hbelow : number < f.below num den + 1 :=
    value_strictMono.lt_iff_lt.1 (((value_lt_midpoint number).trans_le h.midpoint_le).trans hlt)
  have hbelow' : f.below num den < number + 2 :=
    value_strictMono.lt_iff_lt.1 ((hle.trans h.le_midpoint).trans_lt (midpoint_lt_value_succ (number + 1)))
  obtain ⟨hlower, hupper⟩ := h
  have hcases : f.below num den = number ∨ f.below num den = number + 1 := by omega
  rcases hcases with h | h
  · rw [h] at hup htie
    rcases hlower with hlower | ⟨hlower, hodd⟩
    · rw [hup hlower]
      omega
    · rw [htie hlower.symm, hodd]
      omega
  · rw [h] at hdown htie
    rcases hupper with hupper | ⟨hupper, hodd⟩
    · rw [hdown hupper]
      omega
    · rw [htie hupper]
      omega

/-- The rounded ratio is a neighbour of the ratio, and at most half a spacing away. -/
theorem abs_value_nearest_sub_le_spacing (hprecision : 2 ≤ f.precision) (hnum : 0 < num) (hden : 0 < den)
    (hrange : (num / den : ℚ) < f.value f.infinity) :
    |f.value (f.nearest num den) - num / den| ≤ 2 ^ f.spacing num den / 2 := by
  obtain ⟨⟨hexponent, hle, hlt⟩, hdown, hup, htie⟩ := nearest_cases hprecision hnum hden
  have hbelow : f.below num den < f.infinity := value_strictMono.lt_iff_lt.1 (hle.trans_lt hrange)
  have hvalue := f.midpoint_sub_value (f.below num den)
  have hsucc := f.value_succ_sub_midpoint (f.below num den)
  rw [hexponent] at hvalue hsucc
  rw [abs_le]
  rcases lt_trichotomy (num / den : ℚ) (f.midpoint (f.below num den)) with h | h | h
  · rw [hdown h, min_eq_left hbelow.le]
    constructor <;> linarith
  · rw [htie h, min_eq_left (by omega)]
    rcases Nat.mod_two_eq_zero_or_one (f.below num den) with h2 | h2
    · rw [h2, Nat.add_zero]
      constructor <;> linarith
    · rw [h2]
      constructor <;> linarith
  · rw [hup h, min_eq_left (by omega)]
    constructor <;> linarith

/-- The error of rounding is a small part of the ratio, if the ratio is not below the values that have all their bits. -/
theorem abs_value_nearest_sub_le (hprecision : 2 ≤ f.precision) (hnum : 0 < num) (hden : 0 < den)
    (hnormal : (f.binade : ℚ) * 2 ^ f.minExponent ≤ num / den) (hrange : (num / den : ℚ) < f.value f.infinity) :
    |f.value (f.nearest num den) - num / den| * (2 * f.binade) ≤ num / den := by
  have herror := abs_value_nearest_sub_le_spacing hprecision hnum hden hrange
  obtain ⟨-, -, hspacing⟩ := f.spacing_spec (by omega) hnum hden
  have hspacing : (f.binade : ℚ) * 2 ^ f.spacing num den ≤ num / den :=
    hspacing.elim id fun h => by rwa [h]
  have hbinade : (0 : ℚ) ≤ f.binade := by positivity
  nlinarith

/-- The spacing around a ratio does not go beyond an exponent that the ratio can be written with. -/
theorem spacing_le (hnum : 0 < num) (hden : 0 < den) {significand : Nat} {exponent : Int}
    (hratio : (num / den : ℚ) = significand * 2 ^ exponent) (hsignificand : significand < 2 ^ f.precision)
    (hmin : f.minExponent ≤ exponent) : f.spacing num den ≤ exponent := by
  have hlower := (floorLog2_spec hnum hden).1
  have hupper : (num / den : ℚ) < 2 ^ (f.precision + exponent) := by
    rw [hratio, zpow_add₀ (by norm_num), zpow_natCast]
    have : (significand : ℚ) < 2 ^ f.precision := by exact_mod_cast hsignificand
    gcongr
  have := (zpow_lt_zpow_iff_right₀ (by norm_num : (1 : ℚ) < 2)).1 (hlower.trans_lt hupper)
  unfold spacing
  omega

/-- A ratio that the format has is not changed. -/
theorem value_nearest_of_eq (hprecision : 2 ≤ f.precision) (hnum : 0 < num) (hden : 0 < den) {significand : Nat}
    {exponent : Int} (hratio : (num / den : ℚ) = significand * 2 ^ exponent) (hsignificand : significand < 2 ^ f.precision)
    (hmin : f.minExponent ≤ exponent) (hrange : (num / den : ℚ) < f.value f.infinity) :
    f.value (f.nearest num den) = num / den := by
  have hspacing := spacing_le hnum hden hratio hsignificand hmin
  obtain ⟨⟨hexponent, hle, hlt⟩, hdown, -, -⟩ := nearest_cases hprecision hnum hden
  have hunit : (0 : ℚ) < 2 ^ f.spacing num den := by positivity
  obtain ⟨steps, hsteps⟩ := Int.le.dest hspacing
  have hmultiple : (num / den : ℚ) = (significand * 2 ^ steps : Nat) * 2 ^ f.spacing num den := by
    rw [hratio, ← hsteps, zpow_add₀ (by norm_num), zpow_natCast]
    push_cast
    ring
  have hvalue : f.value (f.below num den) = num / den := by
    rw [value, hexponent] at hle ⊢
    rw [value_succ, hexponent] at hlt
    rw [hmultiple] at hle hlt ⊢
    have hle := le_of_mul_le_mul_right hle hunit
    have hlt := lt_of_mul_lt_mul_right hlt hunit.le
    norm_cast at hle hlt
    rw [le_antisymm hle (Nat.lt_succ_iff.1 hlt)]
  have hbelow : f.below num den < f.infinity := value_strictMono.lt_iff_lt.1 (hvalue.trans_lt hrange)
  rw [hdown (hvalue.symm.trans_lt (value_lt_midpoint _)), min_eq_left hbelow.le, hvalue]

end

/-! ## Products and quotients -/

/-- A positive rational number is rounded to the value with the given number. -/
def Rounds (f : FloatFormat) (x : ℚ) (number : Nat) : Prop :=
  ∃ num den : Nat, 0 < num ∧ 0 < den ∧ x = num / den ∧ number = f.nearest num den

theorem rounds_nearest {num den : Nat} (hnum : 0 < num) (hden : 0 < den) : f.Rounds (num / den) (f.nearest num den) :=
  ⟨num, den, hnum, hden, rfl, rfl⟩

theorem rounds_nearestDyadic {significand : Nat} (h : 0 < significand) (exponent : Int) :
    f.Rounds (significand * 2 ^ exponent) (f.nearestDyadic significand exponent) := by
  refine ⟨_, _, shiftLeft_pos h _, shiftLeft_pos Nat.one_pos _, ?_, rfl⟩
  rw [cast_shiftLeft, cast_shiftLeft, Nat.cast_one, one_mul, mul_div_assoc, zpow_toNat_div]

theorem significand_pos {number : Nat} (h : 0 < f.value number) : 0 < (f.decode number).1 := by
  refine Nat.pos_of_ne_zero fun hzero => ?_
  rw [value, hzero, Nat.cast_zero, zero_mul] at h
  exact lt_irrefl 0 h

theorem rounds_mul {a b : Nat} (ha : 0 < f.value a) (hb : 0 < f.value b) :
    f.Rounds (f.value a * f.value b) (f.mul a b) := by
  have hrounds := f.rounds_nearestDyadic (Nat.mul_pos (significand_pos ha) (significand_pos hb))
    ((f.decode a).2 + (f.decode b).2)
  rw [zpow_add₀ (by norm_num), Nat.cast_mul, mul_mul_mul_comm] at hrounds
  exact hrounds

theorem rounds_div {a b : Nat} (ha : 0 < f.value a) (hb : 0 < f.value b) :
    f.Rounds (f.value a / f.value b) (f.div a b) := by
  refine ⟨(f.decode a).1 <<< ((f.decode a).2 - (f.decode b).2).toNat,
    (f.decode b).1 <<< ((f.decode b).2 - (f.decode a).2).toNat, shiftLeft_pos (significand_pos ha) _,
    shiftLeft_pos (significand_pos hb) _, ?_, rfl⟩
  have hpow : (2 : ℚ) ^ (f.decode a).2 / 2 ^ (f.decode b).2 =
      2 ^ ((f.decode a).2 - (f.decode b).2).toNat / 2 ^ ((f.decode b).2 - (f.decode a).2).toNat := by
    rw [← zpow_sub₀ (by norm_num), ← zpow_toNat_div, neg_sub]
  rw [cast_shiftLeft, cast_shiftLeft, value, value, mul_div_mul_comm, hpow, mul_div_mul_comm]

end FloatFormat

end Armature
