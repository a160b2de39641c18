import Armature.Number.Decimal.Value
import Armature.Proofs.ShortestNumeral

/-!
# The doubles that numerals are read as

A numeral whose digits fit a double is read with two roundings, of the power of ten and of the product or quotient. So
the double that is read is close to what the numeral says, and it is just that if the power of ten and the result are
doubles (`Decimal.toDouble?_spec`).
-/

namespace Armature

namespace Decimal

/-! ## Digits -/

theorem le_ofDigitChars (n : Nat) (cs : List Char) : n ≤ Nat.ofDigitChars 10 cs n := by
  induction cs generalizing n with
  | nil => simp
  | cons c cs ih =>
    rw [Nat.ofDigitChars_cons]
    exact le_trans (by omega) (ih _)

theorem takeDigits_eq {bound n : Nat} {cs : List Char} (h : Nat.ofDigitChars 10 cs n < bound) :
    takeDigits bound n cs = (Nat.ofDigitChars 10 cs n, []) := by
  fun_induction takeDigits bound n cs with
  | case1 => simp
  | case2 n c cs next hlt ih =>
    rw [Nat.ofDigitChars_cons] at h ⊢
    exact ih h
  | case3 n c cs next hnot =>
    rw [Nat.ofDigitChars_cons] at h
    exact absurd (lt_of_le_of_lt (le_ofDigitChars _ _) h) hnot

/-- The power of ten that the digits count. -/
def power (d : Decimal) : Int := d.exponent.getD 0 - d.places

/-- All digits are taken if they fit a machine word. -/
theorem leadingDigits_eq {d : Decimal} (h : d.coefficient < UInt64.size) :
    d.leadingDigits = (d.coefficient, d.power) := by
  have hdigits := d.ofDigitChars_digits
  rw [Nat.ofDigitChars_append] at hdigits
  have hfraction := takeDigits_eq (hdigits.trans_lt h)
  have hwhole := takeDigits_eq (((le_ofDigitChars _ d.digits.2).trans_eq hdigits).trans_lt h)
  unfold leadingDigits
  simp only [hwhole, hfraction, hdigits, List.length_nil, Nat.cast_zero, add_zero]
  rfl

/-! ## Doubles -/

theorem precision_double : 2 ≤ double.precision := by decide

theorem value_infinity_double : double.value double.infinity = 2 ^ (1024 : Int) := by
  have : double.decode double.infinity = (2 ^ 52, 972) := by decide +kernel
  rw [FloatFormat.value, this, Nat.cast_pow, Nat.cast_ofNat, ← zpow_natCast, ← zpow_add₀ (by norm_num)]
  rfl

/-- A number is far from both ends of the range of the doubles. -/
structure Moderate (x : ℚ) : Prop where
  ge : 1 / 2 ^ 250 ≤ x
  le : x ≤ 2 ^ 250

section

variable {x : ℚ} {number : Nat}

theorem lt_value_infinity (h : x ≤ 2 ^ 251) : x < double.value double.infinity := by
  have hle : x ≤ 2 ^ (251 : Int) := by exact_mod_cast h
  rw [value_infinity_double]
  exact hle.trans_lt (zpow_lt_zpow_right₀ (by norm_num) (by norm_num))

/-- The error of rounding. -/
theorem abs_sub_le_of_rounds (h : double.Rounds x number) (hx : Moderate x) : |double.value number - x| * 2 ^ 53 ≤ x := by
  have hrange := lt_value_infinity (hx.le.trans (by norm_num))
  obtain ⟨num, den, hnum, hden, rfl, rfl⟩ := h
  have hbinade : (double.binade : ℚ) = 2 ^ (52 : Int) := by
    have : double.binade = 2 ^ 52 := by decide
    rw [this, Nat.cast_pow, Nat.cast_ofNat, ← zpow_natCast]
    rfl
  have hnormal : (double.binade : ℚ) * 2 ^ double.minExponent ≤ num / den := by
    have hge : (2 : ℚ) ^ (-250 : Int) ≤ num / den := by
      rw [zpow_neg, ← one_div]
      exact_mod_cast hx.ge
    refine hge.trans' ?_
    rw [hbinade, ← zpow_add₀ (by norm_num)]
    exact zpow_le_zpow_right₀ (by norm_num) (by decide)
  have := FloatFormat.abs_value_nearest_sub_le precision_double hnum hden hnormal hrange
  rw [hbinade] at this
  exact this.trans' (by norm_num)

/-- A double is not changed by rounding. -/
theorem eq_of_rounds (h : double.Rounds x number) (hx : Moderate x) (significand : Nat) (exponent : Int)
    (heq : x = significand * 2 ^ exponent) (hsignificand : significand < 2 ^ 53) (hexponent : -1074 ≤ exponent) :
    double.value number = x := by
  have hrange := lt_value_infinity (hx.le.trans (by norm_num))
  obtain ⟨num, den, hnum, hden, rfl, rfl⟩ := h
  exact FloatFormat.value_nearest_of_eq precision_double hnum hden heq hsignificand hexponent hrange

end

/-! ## Reading -/

/-- An integer that fits a double is read as it is. -/
theorem value_nearest_natCast {n : Nat} (hpos : 0 < n) (hn : n < 2 ^ 53) : double.value (double.nearest n 1) = n := by
  have hrounds := double.rounds_nearest hpos Nat.one_pos
  rw [Nat.cast_one, div_one] at hrounds
  have hge : (1 : ℚ) ≤ n := by exact_mod_cast hpos
  have hle : (n : ℚ) ≤ 2 ^ 53 := by exact_mod_cast hn.le
  exact eq_of_rounds hrounds ⟨hge.trans' (by norm_num), hle.trans (by norm_num)⟩ n 0 (by simp) hn (by norm_num)

section

variable {power : Nat}

theorem ten_pow_le (h : power ≤ 50) : (10 : ℚ) ^ power ≤ 2 ^ 170 :=
  (pow_le_pow_right₀ (by norm_num) h).trans (by norm_num)

theorem moderate_ten_pow (h : power ≤ 50) : Moderate (10 ^ power) where
  ge := (one_le_pow₀ (by norm_num)).trans' (by norm_num)
  le := (ten_pow_le h).trans (by norm_num)

theorem rounds_doubleTenPow (power : Nat) : double.Rounds (10 ^ power) (doubleTenPow power) := by
  have hrounds : double.Rounds (tenPow power / (1 : Nat)) (doubleTenPow power) :=
    double.rounds_nearest (Nat.pow_pos (by norm_num)) Nat.one_pos
  rwa [Nat.cast_one, div_one, cast_tenPow] at hrounds

/-- A power of ten in a moderate range is close to the double that stands for it. -/
theorem abs_value_doubleTenPow_sub_le (h : power ≤ 50) :
    |double.value (doubleTenPow power) - 10 ^ power| * 2 ^ 53 ≤ 10 ^ power :=
  abs_sub_le_of_rounds (rounds_doubleTenPow power) (moderate_ten_pow h)

/-- The lower powers of ten are doubles. -/
theorem value_doubleTenPow (h : power ≤ 22) : double.value (doubleTenPow power) = 10 ^ power := by
  refine eq_of_rounds (rounds_doubleTenPow power) (moderate_ten_pow (by omega)) (5 ^ power) power ?_ ?_ (by omega)
  · rw [zpow_natCast, Nat.cast_pow, ← mul_pow]
    norm_num
  · exact (Nat.pow_le_pow_right (by norm_num) h).trans_lt (by norm_num)

end

/-- What is close to a positive number is not far below or above it. -/
theorem bounds_of_abs_sub_le {x y : ℚ} (hy : 0 < y) (h : |x - y| * 2 ^ 53 ≤ y) : y / 2 ≤ x ∧ x ≤ 2 * y := by
  have h₁ := neg_abs_le (x - y)
  have h₂ := le_abs_self (x - y)
  constructor <;> linarith

/-- The error of a factor is the same part of the product. -/
theorem abs_mul_sub_mul_le {x y z : ℚ} (hx : 0 ≤ x) (h : |y - z| * 2 ^ 53 ≤ z) :
    |x * y - x * z| * 2 ^ 53 ≤ x * z := by
  rw [← mul_sub, abs_mul, abs_of_nonneg hx, mul_assoc]
  exact mul_le_mul_of_nonneg_left h hx

/-- The error of a divisor is the same part of the quotient. -/
theorem abs_div_sub_div_le {x y z : ℚ} (hx : 0 ≤ x) (hy : 0 < y) (hz : 0 < z) (h : |y - z| * 2 ^ 53 ≤ z) :
    |x / y - x / z| * 2 ^ 53 ≤ x / y := by
  have hdifference : x / y - x / z = x / y * ((z - y) / z) := by field_simp
  rw [hdifference, abs_mul, abs_of_nonneg (div_nonneg hx hy.le), abs_div, abs_sub_comm, abs_of_pos hz, mul_assoc]
  refine mul_le_of_le_one_right (div_nonneg hx hy.le) ?_
  rwa [div_mul_eq_mul_div, div_le_one hz]

/-- The error of two roundings in turn. -/
theorem abs_sub_le_of_abs_sub_le {x y z : ℚ} (hxy : |x - y| * 2 ^ 53 ≤ y)
    (hyz : |y - z| * 2 ^ 53 ≤ y ∨ |y - z| * 2 ^ 53 ≤ z) : |x - z| * 2 ^ 51 ≤ z := by
  have htriangle := abs_sub_le x y z
  have hy : y - z ≤ |y - z| := le_abs_self _
  have hx : 0 ≤ |x - y| := abs_nonneg _
  rcases hyz with hyz | hyz <;> linarith

/-- How a number is read: close to what it is, and just that if a double is. -/
structure ReadAs (number : Nat) (x : ℚ) (exact : Prop) : Prop where
  close : |double.value number - x| * 2 ^ 51 ≤ x
  eq : exact → ∀ {significand : Nat} {exponent : Int}, x = significand * 2 ^ exponent → significand < 2 ^ 53 →
    -1074 ≤ exponent → double.value number = x

section

variable {n power : Nat} (hpos : 0 < n) (hn : n < 2 ^ 53) (hpower : power ≤ 50)

include hpos hn hpower

theorem moderate_mul {y : ℚ} (hlow : 10 ^ power / 2 ≤ y) (hhigh : y ≤ 2 * 10 ^ power) : Moderate (n * y) := by
  have hn₁ : (1 : ℚ) ≤ n := by exact_mod_cast hpos
  have hn₂ : (n : ℚ) ≤ 2 ^ 53 := by exact_mod_cast hn.le
  have hten₁ : (1 : ℚ) ≤ 10 ^ power := one_le_pow₀ (by norm_num)
  have hten₂ := ten_pow_le hpower
  constructor <;> nlinarith

theorem moderate_div {y : ℚ} (hlow : 10 ^ power / 2 ≤ y) (hhigh : y ≤ 2 * 10 ^ power) : Moderate (n / y) := by
  have hn₁ : (1 : ℚ) ≤ n := by exact_mod_cast hpos
  have hn₂ : (n : ℚ) ≤ 2 ^ 53 := by exact_mod_cast hn.le
  have hten₁ : (1 : ℚ) ≤ 10 ^ power := one_le_pow₀ (by norm_num)
  have hten₂ := ten_pow_le hpower
  have hy : 0 < y := by linarith
  constructor
  · rw [le_div_iff₀ hy]
    linarith
  · rw [div_le_iff₀ hy]
    linarith

theorem scaleUp?_spec : ∃ product, scaleUp? (double.nearest n 1) power = some product ∧
    ReadAs product (n * 10 ^ power) (power ≤ 22) := by
  have hn₀ : (0 : ℚ) < n := by exact_mod_cast hpos
  have hten : (0 : ℚ) < 10 ^ power := by positivity
  have hnumber := value_nearest_natCast hpos hn
  have hclose := abs_value_doubleTenPow_sub_le hpower
  obtain ⟨hlow, hhigh⟩ := bounds_of_abs_sub_le hten hclose
  have hmoderate := moderate_mul hpos hn hpower hlow hhigh
  have hrounds := FloatFormat.rounds_mul (hnumber ▸ hn₀) (by linarith : 0 < double.value (doubleTenPow power))
  rw [hnumber] at hrounds
  have hproduct := abs_sub_le_of_rounds hrounds hmoderate
  have hfinite : double.mul (double.nearest n 1) (doubleTenPow power) < double.infinity := by
    obtain ⟨-, hle⟩ := bounds_of_abs_sub_le (mul_pos hn₀ (by linarith)) hproduct
    have hrange := hmoderate.le
    exact FloatFormat.value_strictMono.lt_iff_lt.1 (lt_value_infinity (by linarith))
  have hne : double.nearest n 1 ≠ 0 := by
    intro h
    rw [h, FloatFormat.value_zero] at hnumber
    linarith
  refine ⟨double.mul (double.nearest n 1) (doubleTenPow power), ?_, ?_, ?_⟩
  · have hmax : power ≤ maxTenPower := hpower.trans (by decide)
    simp only [scaleUp?, hne, if_false, hmax, if_true, hfinite]
  · exact abs_sub_le_of_abs_sub_le hproduct (.inr (abs_mul_sub_mul_le hn₀.le hclose))
  · intro hsmall _ _ hx hs he
    rw [value_doubleTenPow hsmall] at hrounds hmoderate
    exact eq_of_rounds hrounds hmoderate _ _ hx hs he

theorem scaleDown_spec : ReadAs (scaleDown (double.nearest n 1) power) (n / 10 ^ power) (power ≤ 22) := by
  have hn₀ : (0 : ℚ) < n := by exact_mod_cast hpos
  have hten : (0 : ℚ) < 10 ^ power := by positivity
  have hnumber := value_nearest_natCast hpos hn
  have hclose := abs_value_doubleTenPow_sub_le hpower
  obtain ⟨hlow, hhigh⟩ := bounds_of_abs_sub_le hten hclose
  have hmoderate := moderate_div hpos hn hpower hlow hhigh
  have hrounds := FloatFormat.rounds_div (hnumber ▸ hn₀) (by linarith : 0 < double.value (doubleTenPow power))
  have hdown : scaleDown (double.nearest n 1) power = double.div (double.nearest n 1) (doubleTenPow power) := by
    have hmax : power ≤ maxTenPower := hpower.trans (by decide)
    simp only [scaleDown, hmax, if_true]
  rw [hnumber, ← hdown] at hrounds
  have hquotient := abs_sub_le_of_rounds hrounds hmoderate
  refine ⟨abs_sub_le_of_abs_sub_le hquotient (.inl (abs_div_sub_div_le hn₀.le (by linarith) hten hclose)), ?_⟩
  intro hsmall _ _ hx hs he
  rw [value_doubleTenPow hsmall] at hrounds hmoderate
  exact eq_of_rounds hrounds hmoderate _ _ hx hs he

end

/-- A numeral whose digits fit a double is read as a double close to what it says. -/
theorem toDouble?_spec {d : Decimal} (hpos : 0 < d.coefficient) (hn : d.coefficient < 2 ^ 53) (hlow : -50 ≤ d.power)
    (hhigh : d.power ≤ 50) : ∃ number, d.toDouble? = some number ∧
      ReadAs number (d.coefficient * 10 ^ d.power) (-22 ≤ d.power ∧ d.power ≤ 22) := by
  have hleading := leadingDigits_eq (hn.trans (by decide))
  rcases lt_or_ge d.power 0 with h | h
  · obtain ⟨k, hk⟩ := Int.eq_ofNat_of_zero_le (by omega : 0 ≤ -d.power)
    have hpower : d.power = -(k : Int) := by omega
    obtain ⟨hclose, hexact⟩ := scaleDown_spec hpos hn (by omega : k ≤ 50)
    refine ⟨scaleDown (double.nearest d.coefficient 1) k, ?_, ?_, ?_⟩
    · simp [toDouble?, hleading, not_le.2 h, hk]
    · rwa [hpower, zpow_neg, zpow_natCast, ← div_eq_mul_inv]
    · rw [hpower, zpow_neg, zpow_natCast, ← div_eq_mul_inv]
      exact fun hsmall => hexact (by omega)
  · obtain ⟨k, hk⟩ := Int.eq_ofNat_of_zero_le h
    obtain ⟨number, hnumber, hclose, hexact⟩ := scaleUp?_spec hpos hn (by omega : k ≤ 50)
    refine ⟨number, ?_, ?_, ?_⟩
    · simp [toDouble?, hleading, hk, hnumber]
    · rwa [hk, zpow_natCast]
    · rw [hk, zpow_natCast]
      exact fun hsmall => hexact (by omega)

end Decimal
end Armature
