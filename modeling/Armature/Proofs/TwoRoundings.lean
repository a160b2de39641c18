import Armature.Proofs.FloatText

/-!
# Floats read through the nearest double

A reader that takes the double nearest to a numeral, and then the float nearest to the double, rounds twice. It reads back
every finite float but one and its negative: 7.038531e-26 is so little below a half way point that the nearest double is at
the half way point, from where ties go to the next float. The reader that rounds stepwise does not share this case, for its
double is one lower. So descriptions survive their text for all finite floats (`Description.survives_text`), and with the
nearest double just if that float is not among them.
-/

namespace Armature

namespace Decimal

/-- The magnitude of the double that is nearest to a numeral; none if it is out of range. -/
def nearestDouble? (d : Decimal) : Option Nat :=
  let number := double.nearest (d.coefficient * tenPow d.power.toNat) (tenPow (-d.power).toNat)
  if number < double.infinity then some number else none

theorem tenPow_pos (n : Nat) : 0 < tenPow n := Nat.pow_pos (by norm_num)

section

variable {d : Decimal}

theorem ratio_eq (d : Decimal) : ((d.coefficient * tenPow d.power.toNat : Nat) : ℚ) / (tenPow (-d.power).toNat : Nat) =
    d.coefficient * 10 ^ d.power := by
  rw [Nat.cast_mul, cast_tenPow, cast_tenPow, mul_div_assoc, zpow_toNat_div]

/-- The nearest double is close, and it is the number itself if a double is. -/
theorem nearestDouble?_spec (hpos : 0 < d.coefficient) (hmoderate : Moderate (d.coefficient * 10 ^ d.power)) :
    ∃ number, d.nearestDouble? = some number ∧ ReadAs number (d.coefficient * 10 ^ d.power) True := by
  have hrounds := double.rounds_nearest (Nat.mul_pos hpos (tenPow_pos d.power.toNat)) (tenPow_pos (-d.power).toNat)
  rw [ratio_eq] at hrounds
  have hclose := abs_sub_le_of_rounds hrounds hmoderate
  have hx : (0 : ℚ) < d.coefficient * 10 ^ d.power := by positivity
  have hfinite : double.nearest (d.coefficient * tenPow d.power.toNat) (tenPow (-d.power).toNat) < double.infinity := by
    obtain ⟨-, hle⟩ := bounds_of_abs_sub_le hx hclose
    have hrange := hmoderate.le
    exact FloatFormat.value_strictMono.lt_iff_lt.1 (lt_value_infinity (by linarith))
  refine ⟨_, if_pos hfinite, ?_, fun _ _ _ heq hlt hle => eq_of_rounds hrounds hmoderate _ _ heq hlt hle⟩
  have hnonneg := abs_nonneg (double.value (double.nearest (d.coefficient * tenPow d.power.toNat)
    (tenPow (-d.power).toNat)) - d.coefficient * 10 ^ d.power)
  linarith

end

theorem moderate_of_short {number c : Nat} {power : Int} (h : Binary32.Short number c power) :
    Moderate (c * 10 ^ power) := by
  have hc₁ : (1 : ℚ) ≤ c := Nat.one_le_cast.2 h.pos
  have hc₂ : (c : ℚ) ≤ 2 ^ 53 := by exact_mod_cast h.lt_two_pow.le
  constructor
  · calc (1 / 2 ^ 250 : ℚ) ≤ 10 ^ (-49 : Int) := by norm_num
      _ ≤ 10 ^ power := zpow_le_zpow_right₀ (by norm_num) h.low
      _ ≤ c * 10 ^ power := le_mul_of_one_le_left (by positivity) hc₁
  · calc (c * 10 ^ power : ℚ) ≤ 2 ^ 53 * 10 ^ (40 : Int) :=
        mul_le_mul hc₂ (zpow_le_zpow_right₀ (by norm_num) h.high) (by positivity) (by positivity)
      _ ≤ 2 ^ 250 := by norm_num

theorem isClose_nearestDouble? : IsClose nearestDouble? := by
  intro number c power negative h
  have hwrites := writes_numeral negative power h.pos h.lt_two_pow
  have hmoderate := moderate_of_short h
  rw [← hwrites.value_eq] at hmoderate ⊢
  obtain ⟨read, hread, hclose, hexact⟩ := nearestDouble?_spec hwrites.coefficient_pos hmoderate
  exact ⟨read, hread, hclose, fun _ => hexact trivial⟩

end Decimal

namespace Binary32

/-- Reads numerals through the nearest double. -/
def readNearest : FloatReader := throughDouble Decimal.nearestDouble?

/-- The magnitude 7.038531e-26. -/
def misread : Nat := 0x15ae43fd

/-- What becomes of a magnitude that is written and read through the nearest double. -/
def rereadMagnitude (magnitude : Nat) : Nat := if magnitude = misread then misread + 1 else magnitude

/-- What becomes of a float that is written and read through the nearest double. -/
def rereadNearest (x : Binary32) : Binary32 := ofParts x.isNegative (rereadMagnitude x.magnitude)

/-- Of the floats next to the five half way points, all but one are read back through the nearest double too. -/
theorem rereadMagnitude_closeHalfways : ∀ number ∈ closeHalfways, ∀ negative,
    reread? Decimal.nearestDouble? negative number = some (rereadMagnitude number) ∧
      reread? Decimal.nearestDouble? negative (number + 1) = some (rereadMagnitude (number + 1)) := by
  decide +kernel

theorem reread?_nearestDouble? {magnitude : Nat} (hne : magnitude ≠ 0) (hfinite : magnitude < format.infinity)
    (negative : Bool) : reread? Decimal.nearestDouble? negative magnitude = some (rereadMagnitude magnitude) := by
  obtain ⟨number, rfl⟩ := Nat.exists_eq_succ_of_ne_zero hne
  by_cases hlower : number ∈ closeHalfways
  · exact (rereadMagnitude_closeHalfways number hlower negative).2
  by_cases hupper : number + 1 ∈ closeHalfways
  · exact (rereadMagnitude_closeHalfways _ hupper negative).1
  have hread : number + 1 ≠ misread := fun h => hupper (by rw [h]; decide)
  rw [Nat.succ_eq_add_one, rereadMagnitude, if_neg hread]
  exact reread?_eq Decimal.isClose_nearestDouble? hfinite hlower hupper negative

/-- What is read through the nearest double for a finite float. -/
theorem readNearest_ofFloat {x : Binary32} (h : x.isFinite) :
    (Json.ofFloat x).asFloatBy? readNearest = some x.rereadNearest := by
  rw [asFloatBy?_ofFloat h]
  by_cases hzero : x.magnitude = 0
  · have hzero' : rereadMagnitude x.magnitude = x.magnitude := if_neg (hzero ▸ by decide)
    rw [rereadNearest, hzero', ofParts_isNegative_magnitude]
    exact read_toDecimal_of_magnitude_eq_zero hzero (by decide +kernel)
  · exact throughDouble_toDecimal hzero (reread?_nearestDouble? hzero (of_decide_eq_true h) x.isNegative)

theorem rereadNearest_eq_self_iff {x : Binary32} : x.rereadNearest = x ↔ x.magnitude ≠ misread := by
  constructor
  · intro h hmagnitude
    rw [rereadNearest, hmagnitude] at h
    have hother := congrArg magnitude h
    rw [hmagnitude] at hother
    cases hnegative : x.isNegative <;> rw [hnegative] at hother <;> exact absurd hother (by decide)
  · intro h
    rw [rereadNearest, rereadMagnitude, if_neg h, ofParts_isNegative_magnitude]

end Binary32

namespace Description

variable {d : Description Binary32}

/-- Finite floats survive the text of a description, subnormal numbers, both zeros and the extremes included. Through the
    nearest double they survive as well, except for 7.038531e-26 and its negative, which become the next float. -/
theorem survives_text (d : Description Binary32) (hplaces : ∀ n ∈ d.places, n < UInt64.size)
    (hfinite : ∀ x ∈ d.floats, x.isFinite) :
    ofText d.toText = .ok d ∧
      ofTextBy Binary32.readNearest d.toText = .ok (d.map Binary32.rereadNearest) ∧
      (ofTextBy Binary32.readNearest d.toText = .ok d ↔ ∀ x ∈ d.floats, x.magnitude ≠ Binary32.misread) := by
  have hread : ∀ x ∈ d.floats, (Json.ofFloat x).asFloatBy? Decimal.toBinary32? = some (id x) :=
    fun x hx => Binary32.readsBack_of_isFinite (hfinite x hx)
  have hnearest := ofTextBy_toText hplaces fun x hx => Binary32.readNearest_ofFloat (hfinite x hx)
  refine ⟨?_, hnearest, ?_⟩
  · rw [ofText, ofTextBy_toText hplaces hread, map_id]
  · rw [hnearest, Except.ok.injEq, map_eq_self_iff]
    simp only [Binary32.rereadNearest_eq_self_iff]

/-- A description with the float that is misread, its neighbours, the extremes and both zeros. -/
def delicate : Description Binary32 where
  declarations := [
    ⟨"negative", .float ⟨0x95ae43fd⟩⟩, ⟨"next", .float ⟨0x15ae43fe⟩⟩, ⟨"least", .float ⟨1⟩⟩, ⟨"zero", .float ⟨0x80000000⟩⟩]
  nodes := [⟨.float .toRadians, [some (.float ⟨0x15ae43fd⟩)]⟩, ⟨.additiveBlend, [none, none, some (.float ⟨0xff7fffff⟩)]⟩]
  output := none

theorem survives_text_delicate :
    (∀ n ∈ delicate.places, n < UInt64.size) ∧ (∀ x ∈ delicate.floats, x.isFinite) ∧
      ofText delicate.toText = .ok delicate ∧
      ofTextBy Binary32.readNearest delicate.toText ≠ .ok delicate := by
  have hplaces : ∀ n ∈ delicate.places, n < UInt64.size := by decide
  have hfinite : ∀ x ∈ delicate.floats, x.isFinite := by decide
  obtain ⟨htext, -, hnearest⟩ := survives_text delicate hplaces hfinite
  exact ⟨hplaces, hfinite, htext, fun h => hnearest.1 h ⟨0x95ae43fd⟩ (.head _) rfl⟩

/-- A description with the float that is misread. -/
def misreadAlone : Description Binary32 := ⟨[⟨"x", .float ⟨0x15ae43fd⟩⟩], [], none⟩

/-- Not every finite float survives if numerals are read through the nearest double: 7.038531e-26 comes back as
    7.0385313e-26. -/
theorem not_survives_nearest :
    (∀ x ∈ misreadAlone.floats, x.isFinite) ∧
      Json.ofFloat ⟨0x15ae43fd⟩ = .number ⟨false, 7038531, 6, some (-26)⟩ ∧
      ofTextBy Binary32.readNearest misreadAlone.toText = .ok ⟨[⟨"x", .float ⟨0x15ae43fe⟩⟩], [], none⟩ ∧
      ofTextBy Binary32.readNearest misreadAlone.toText ≠ .ok misreadAlone := by
  have hnumeral : Binary32.toDecimal Json.floatLayout ⟨0x15ae43fd⟩ = ⟨false, 7038531, 6, some (-26)⟩ := by decide +kernel
  have htext : ofTextBy Binary32.readNearest misreadAlone.toText = .ok ⟨[⟨"x", .float ⟨0x15ae43fe⟩⟩], [], none⟩ := by
    rw [ofTextBy, toText, Json.parse?_toPrettyText]
    decide +kernel
  refine ⟨by decide, ?_, htext, ?_⟩
  · rw [Json.ofFloat, if_pos (by decide), hnumeral]
  · rw [htext, ne_eq, Except.ok.injEq]
    decide

end Description

end Armature
