import Armature.Proofs.DescriptionText
import Armature.Proofs.Midpoints

/-!
# Finite floats read back

Every finite float is read back from its shortest decimal (`Binary32.readsBack_iff`), although the reader rounds three
times on the way. The decimal lies around the float, and so does the double that is read for it: if the decimal is not
very near to a half way point, the error of the reader cannot take it to the other side; and at a half way point the reader
makes no error. That holds of any reader whose doubles are close to the decimals (`Binary32.reread?_eq`). The few half way
points that are left have to be looked at for each reader.
-/

namespace Armature

/-! ## Numerals in a layout -/

theorem coefficient_lt_ten_pow (c : Nat) : c < 10 ^ (Nat.toDigits 10 c).length :=
  (Nat.length_toDigits_le_iff (by norm_num) Nat.length_toDigits_pos).1 (le_refl _)

/-- What a numeral says that is written for a decimal. -/
structure Decimal.Writes (d : Decimal) (c : Nat) (power : Int) : Prop where
  coefficient_pos : 0 < d.coefficient
  coefficient_lt : d.coefficient < 2 ^ 53
  power_eq : d.power = power ∨ d.power = -1
  value_eq : (d.coefficient * 10 ^ d.power : ℚ) = c * 10 ^ power
  isInteger : d.isInteger = false

/-- A numeral in the layout of floats writes a decimal with digits that fit a double, and never as an integer. -/
theorem writes_numeral (negative : Bool) {c : Nat} (power : Int) (hpos : 0 < c) (hc : c < 2 ^ 53) :
    (Json.floatLayout.numeral negative c power).Writes c power := by
  have hlength : 0 < (Nat.toDigits 10 c).length := Nat.length_toDigits_pos
  have hdigits := coefficient_lt_ten_pow c
  unfold DecimalLayout.numeral
  simp only
  generalize (Nat.toDigits 10 c).length = length at *
  split
  · next hpositional =>
    have hhigh : power + (length - 1 : Nat) ≤ 12 := hpositional.2
    split
    · next hneg =>
      have hpower : Decimal.power ⟨negative, c, (-power).toNat, none⟩ = power := by
        simp only [Decimal.power, Option.getD_none]
        omega
      refine ⟨hpos, hc, .inl hpower, by rw [hpower], ?_⟩
      have : (-power).toNat ≠ 0 := by omega
      simp [Decimal.isInteger, this]
    · next hnonneg =>
      obtain ⟨steps, rfl⟩ := Int.eq_ofNat_of_zero_le (not_lt.1 hnonneg)
      have hcoefficient : c * 10 ^ (steps + 1) < 10 ^ 14 := by
        calc c * 10 ^ (steps + 1) < 10 ^ length * 10 ^ (steps + 1) := by gcongr
          _ = 10 ^ (length + (steps + 1)) := (pow_add 10 length (steps + 1)).symm
          _ ≤ 10 ^ 14 := Nat.pow_le_pow_right (by norm_num) (by omega)
      refine ⟨?_, hcoefficient.trans (by norm_num), .inr rfl, ?_, rfl⟩
      · exact Nat.mul_pos hpos (Nat.pow_pos (by norm_num))
      · have hpower : Decimal.power ⟨negative, c * tenPow ((steps : Int).toNat + 1), 1, none⟩ = -1 := rfl
        rw [hpower, Nat.cast_mul, cast_tenPow, Int.toNat_natCast, pow_succ, zpow_natCast, zpow_neg_one]
        field_simp
  · have hpower : Decimal.power ⟨negative, c, length - 1, some (power + (length - 1 : Nat))⟩ = power := by
      simp only [Decimal.power, Option.getD_some]
      omega
    exact ⟨hpos, hc, .inl hpower, by rw [hpower], by simp [Decimal.isInteger]⟩

theorem negative_numeral (layout : DecimalLayout) (negative : Bool) (c : Nat) (power : Int) :
    (layout.numeral negative c power).negative = negative := by
  unfold DecimalLayout.numeral
  simp only
  split
  · split <;> rfl
  · rfl

/-! ## Reading short decimals -/

namespace Decimal.ReadAs

variable {read : Nat} {x : ℚ} {exact : Prop}

/-- What is read lies on the same side of a number as what was written, if that is not very near to the number. -/
theorem same_side (h : ReadAs read x exact) {m : ℚ} (hfar : ¬ |x - m| * 2 ^ 51 ≤ x) :
    (m < x → m < double.value read) ∧ (x < m → double.value read < m) := by
  have hclose := h.close
  have h₁ := neg_abs_le (double.value read - x)
  have h₂ := le_abs_self (double.value read - x)
  constructor
  · intro hlt
    rw [abs_of_pos (sub_pos.2 hlt)] at hfar
    linarith
  · intro hlt
    rw [abs_of_neg (sub_neg.2 hlt)] at hfar
    linarith

/-- A half way point between floats is a double. -/
theorem eq_of_midpoint (h : ReadAs read x exact) (hexact : exact) {number : Nat}
    (hmidpoint : x = Binary32.format.midpoint number) : double.value read = x := by
  have hfits := Binary32.format.fits_decode number
  refine h.eq hexact (hmidpoint.trans (FloatFormat.midpoint_eq number)) ?_ ?_
  · have : (Binary32.format.decode number).1 < 2 ^ 24 := hfits.lt
    omega
  · have := Binary32.minExponent_le_decode number
    omega

end Decimal.ReadAs

/-- A reader of doubles answers for short decimals, with doubles that are close to them. -/
def Decimal.IsClose (double? : Decimal → Option Nat) : Prop :=
  ∀ number c power negative, Binary32.Short number c power →
    ∃ read, double? (Json.floatLayout.numeral negative c power) = some read ∧
      Decimal.ReadAs read (c * 10 ^ power) (-22 ≤ power ∧ power ≤ 22)

theorem Decimal.isClose_toDouble? : IsClose toDouble? := by
  intro number c power negative h
  have hwrites := writes_numeral negative power h.pos h.lt_two_pow
  have hlow := h.low
  have hhigh := h.high
  obtain ⟨read, hread, hclose, hexact⟩ := Decimal.toDouble?_spec hwrites.coefficient_pos hwrites.coefficient_lt
    (by have := hwrites.power_eq; omega) (by have := hwrites.power_eq; omega)
  rw [hwrites.value_eq] at hclose hexact
  exact ⟨read, hread, hclose, fun hsmall => hexact (by have := hwrites.power_eq; omega)⟩

namespace Binary32

/-- The magnitude that is read for the shortest numeral of a magnitude with a sign. -/
def reread? (double? : Decimal → Option Nat) (negative : Bool) (magnitude : Nat) : Option Nat :=
  let (coefficient, power) := shortest magnitude
  (double? (Json.floatLayout.numeral negative coefficient power)).map fun number =>
    let (significand, exponent) := Decimal.double.decode number
    format.nearestDyadic significand exponent

/-- The double that is read for a short decimal lies around the float, as the decimal does, unless a half way point next to
    the float is one of five. -/
theorem encloses_read {number c read : Nat} {power : Int} (hfinite : number + 1 < format.infinity)
    (hshort : Short number c power) (hread : Decimal.ReadAs read (c * 10 ^ power) (-22 ≤ power ∧ power ≤ 22))
    (hlower : number ∉ closeHalfways) (hupper : number + 1 ∉ closeHalfways) :
    format.Encloses number (Decimal.double.value read) := by
  obtain ⟨hencloses, hnext, -, -, -⟩ := hshort
  have hdecimal : (0 : ℚ) ≤ c * 10 ^ power := by positivity
  by_cases hnear : |c * 10 ^ power - format.midpoint number| * 2 ^ 51 ≤ c * 10 ^ power
  · obtain ⟨hmidpoint, hsmall⟩ := (near_midpoint (by omega) (.inr hnext) hnear).resolve_right hlower
    rwa [hread.eq_of_midpoint hsmall hmidpoint]
  by_cases hnear' : |c * 10 ^ power - format.midpoint (number + 1)| * 2 ^ 51 ≤ c * 10 ^ power
  · obtain ⟨hmidpoint, hsmall⟩ := (near_midpoint hfinite (.inl hnext) hnear').resolve_right hupper
    rwa [hread.eq_of_midpoint hsmall hmidpoint]
  refine ⟨.inl ((hread.same_side hnear).1 ?_), .inl ((hread.same_side hnear').2 ?_)⟩
  · refine hencloses.lower.resolve_right fun h => hnear ?_
    simpa [h.1] using hdecimal
  · refine hencloses.upper.resolve_right fun h => hnear' ?_
    simpa [h.1] using h.1 ▸ hdecimal

/-- The shortest decimal of a positive float is read as the float, except perhaps next to five half way points. -/
theorem reread?_eq {double? : Decimal → Option Nat} (hclose : Decimal.IsClose double?) {number : Nat}
    (hfinite : number + 1 < format.infinity) (hlower : number ∉ closeHalfways) (hupper : number + 1 ∉ closeHalfways)
    (negative : Bool) : reread? double? negative (number + 1) = some (number + 1) := by
  have hshort := short_shortest hfinite
  unfold reread?
  simp only
  generalize (shortest (number + 1)).1 = c at *
  generalize (shortest (number + 1)).2 = power at *
  obtain ⟨read, hread, hspec⟩ := hclose number c power negative hshort
  have hencloses := encloses_read hfinite hshort hspec hlower hupper
  obtain ⟨num, den, hnum, hden, hratio, hnearest⟩ :=
    format.rounds_nearestDyadic (FloatFormat.significand_pos hencloses.pos) (Decimal.double.decode read).2
  have hratio : Decimal.double.value read = num / den := hratio
  rw [hread, Option.map_some, hnearest, FloatFormat.nearest_eq (by decide) hnum hden hfinite (hratio ▸ hencloses)]

/-- The floats on both sides of the five half way points are read back. -/
theorem reread?_closeHalfways : ∀ number ∈ closeHalfways, ∀ negative,
    reread? Decimal.toDouble? negative number = some number ∧
      reread? Decimal.toDouble? negative (number + 1) = some (number + 1) := by
  decide +kernel

theorem reread?_toDouble? {magnitude : Nat} (hne : magnitude ≠ 0) (hfinite : magnitude < format.infinity)
    (negative : Bool) : reread? Decimal.toDouble? negative magnitude = some magnitude := by
  obtain ⟨number, rfl⟩ := Nat.exists_eq_succ_of_ne_zero hne
  by_cases hlower : number ∈ closeHalfways
  · exact (reread?_closeHalfways number hlower negative).2
  by_cases hupper : number + 1 ∈ closeHalfways
  · exact (reread?_closeHalfways _ hupper negative).1
  exact reread?_eq Decimal.isClose_toDouble? hfinite hlower hupper negative

/-! ## Reading floats -/

theorem ofParts_isNegative_magnitude (x : Binary32) : ofParts x.isNegative x.magnitude = x := by
  obtain ⟨bits⟩ := x
  have hlt := bits.toNat_lt
  have hparts : (if isNegative ⟨bits⟩ then 0x80000000 else 0) + magnitude ⟨bits⟩ = bits.toNat := by
    simp only [isNegative, magnitude, decide_eq_true_eq]
    split <;> omega
  rw [ofParts, hparts, UInt32.ofNat_toNat]

/-- What is not finite is written as null, which no float is read for. -/
theorem unreadable {x : Binary32} (h : x.isFinite = false) : x.Unreadable := by
  rw [Unreadable, Json.ofFloat, h]
  rfl

theorem toDecimal_eq {x : Binary32} (h : x.magnitude ≠ 0) (layout : DecimalLayout) :
    x.toDecimal layout = layout.numeral x.isNegative (shortest x.magnitude).1 (shortest x.magnitude).2 := by
  rw [toDecimal, if_neg h]

/-- Rounds to single precision what a reader of doubles reads. -/
def throughDouble (double? : Decimal → Option Nat) : FloatReader := fun d =>
  (double? d).map fun number =>
    let (significand, exponent) := Decimal.double.decode number
    ofDyadic d.negative significand exponent

/-- The float that is read for the numeral of a float. -/
theorem throughDouble_toDecimal {double? : Decimal → Option Nat} {x : Binary32} {magnitude : Nat} (h : x.magnitude ≠ 0)
    (hreread : reread? double? x.isNegative x.magnitude = some magnitude) :
    throughDouble double? (x.toDecimal Json.floatLayout) = some (ofParts x.isNegative magnitude) := by
  unfold reread? at hreread
  simp only at hreread
  obtain ⟨read, hread, hmagnitude⟩ := Option.map_eq_some_iff.1 hreread
  rw [throughDouble, toDecimal_eq h, hread, Option.map_some, negative_numeral]
  exact congrArg (some <| ofParts x.isNegative ·) hmagnitude

/-- Zero is read back, if its two numerals are. -/
theorem read_toDecimal_of_magnitude_eq_zero {read : FloatReader} {x : Binary32} (h : x.magnitude = 0)
    (hread : ∀ negative, read ⟨negative, 0, 1, none⟩ = some (ofParts negative 0)) :
    read (x.toDecimal Json.floatLayout) = some x := by
  rw [toDecimal, if_pos h, hread, ← h, ofParts_isNegative_magnitude]

theorem asFloatBy?_ofFloat {x : Binary32} (h : x.isFinite) (read : FloatReader) :
    (Json.ofFloat x).asFloatBy? read = read (x.toDecimal Json.floatLayout) := by
  rw [Json.ofFloat, if_pos h, Json.asFloatBy?]

/-- The numeral of a float is never one of an integer, so it is read in double precision first. -/
theorem toBinary32?_toDecimal {x : Binary32} (h : x.isFinite) (hne : x.magnitude ≠ 0) :
    (x.toDecimal Json.floatLayout).toBinary32? = throughDouble Decimal.toDouble? (x.toDecimal Json.floatLayout) := by
  have hfinite : x.magnitude < format.infinity := of_decide_eq_true h
  obtain ⟨number, hnumber⟩ := Nat.exists_eq_succ_of_ne_zero hne
  have hshort := short_shortest (hnumber ▸ hfinite)
  rw [← Nat.succ_eq_add_one, ← hnumber] at hshort
  have hinteger := (writes_numeral x.isNegative (shortest x.magnitude).2 hshort.pos hshort.lt_two_pow).isInteger
  rw [← toDecimal_eq hne] at hinteger
  rw [Decimal.toBinary32?, Decimal.isWord, hinteger, Bool.false_and, if_neg Bool.false_ne_true]
  rfl

theorem readsBack_of_isFinite {x : Binary32} (h : x.isFinite) : x.ReadsBack := by
  have hread : x.ReadsBack ↔ (x.toDecimal Json.floatLayout).toBinary32? = some x := by
    rw [ReadsBack, Json.asFloat?, asFloatBy?_ofFloat h]
  rw [hread]
  by_cases hzero : x.magnitude = 0
  · exact read_toDecimal_of_magnitude_eq_zero hzero (by decide +kernel)
  · have hreread := reread?_toDouble? hzero (of_decide_eq_true h) x.isNegative
    rw [toBinary32?_toDecimal h hzero, throughDouble_toDecimal hzero hreread, ofParts_isNegative_magnitude]

/-- Just the finite floats are read back. -/
theorem readsBack_iff {x : Binary32} : x.ReadsBack ↔ x.isFinite := by
  refine ⟨fun h => ?_, readsBack_of_isFinite⟩
  by_contra hnot
  have := unreadable (Bool.eq_false_iff.2 hnot)
  rw [Unreadable, h] at this
  cases this

end Binary32

end Armature
