import Mathlib.Order.Monotone.Odd
import Armature.Proofs.KeyCoverage
import Armature.Proofs.Rounding

/-!
# Rounding is monotone

A greater number is rounded to no lesser one (`FloatFormat.nearest_mono`). So differences and quotients of floats grow
with their first operand (`Binary32.sub_le_sub`, `Binary32.div_le_div`), infinite operands and overflowing results
included, as far as they are numbers at all.
-/

namespace Armature

namespace FloatFormat

variable {f : FloatFormat} {num den num' den' : Nat}

section

variable (hprecision : 2 ≤ f.precision) (hnum : 0 < num) (hden : 0 < den)

include hprecision hnum hden

/-- The rounded ratio is the last value that is not above the ratio, or the one behind it. -/
theorem nearest_bounds :
    min (f.below num den) f.infinity ≤ f.nearest num den ∧
      f.nearest num den ≤ min (f.below num den + 1) f.infinity := by
  obtain ⟨-, hdown, hup, htie⟩ := nearest_cases hprecision hnum hden
  rcases lt_trichotomy (num / den : ℚ) (f.midpoint (f.below num den)) with h | h | h
  · rw [hdown h]
    omega
  · rw [htie h]
    omega
  · rw [hup h]
    omega

theorem below_mono (hnum' : 0 < num') (hden' : 0 < den') (h : (num / den : ℚ) ≤ num' / den') :
    f.below num den ≤ f.below num' den' := by
  obtain ⟨⟨-, hle, -⟩, -⟩ := nearest_cases hprecision hnum hden
  obtain ⟨⟨-, -, hlt⟩, -⟩ := nearest_cases hprecision hnum' hden'
  exact Nat.lt_succ_iff.1 (value_strictMono.lt_iff_lt.1 ((hle.trans h).trans_lt hlt))

end

/-- A greater ratio is rounded to no lesser value. -/
theorem nearest_mono (hprecision : 2 ≤ f.precision) (hden : 0 < den) (hden' : 0 < den')
    (h : (num / den : ℚ) ≤ num' / den') : f.nearest num den ≤ f.nearest num' den' := by
  rcases Nat.eq_zero_or_pos num with rfl | hnum
  · simp [nearest]
  have hratio : (0 : ℚ) < num' / den' := lt_of_lt_of_le (by positivity) h
  have hnum' : 0 < num' := by
    refine Nat.pos_of_ne_zero ?_
    rintro rfl
    simp at hratio
  have hbounds := nearest_bounds hprecision hnum hden
  have hbounds' := nearest_bounds hprecision hnum' hden'
  rcases (below_mono hprecision hnum hden hnum' hden' h).lt_or_eq with hlt | heq
  · omega
  · -- both ratios lie between the same two values
    obtain ⟨-, hdown, -, htie⟩ := nearest_cases hprecision hnum hden
    obtain ⟨-, -, hup', htie'⟩ := nearest_cases hprecision hnum' hden'
    rw [heq] at hdown htie hbounds
    rcases lt_trichotomy (num / den : ℚ) (f.midpoint (f.below num' den')) with hside | hside | hside
    · rw [hdown hside]
      omega
    · rcases (hside ▸ h).lt_or_eq with hside' | hside'
      · rw [hup' hside']
        omega
      · rw [htie hside, htie' hside'.symm]
    · rw [hup' (hside.trans_le h)]
      omega

end FloatFormat

namespace Binary32

variable {x y z : Binary32}

/-! ## Floats as numbers -/

theorem two_le_precision : 2 ≤ format.precision := by decide

theorem isNegative_ofParts (negative : Bool) {magnitude : Nat} (h : magnitude < 2 ^ 31) :
    (ofParts negative magnitude).isNegative = negative := by
  cases negative <;> simp [ofParts, isNegative, UInt32.toNat_ofNat'] <;> omega

theorem magnitude_ofParts (negative : Bool) {magnitude : Nat} (h : magnitude < 2 ^ 31) :
    (ofParts negative magnitude).magnitude = magnitude := by
  cases negative <;> simp [ofParts, Binary32.magnitude, UInt32.toNat_ofNat'] <;> omega

theorem magnitude_lt (x : Binary32) : x.magnitude < 2 ^ 31 := Nat.mod_lt _ (by decide)

theorem infinity_lt : format.infinity < 2 ^ 31 := by decide

theorem key_ofParts (negative : Bool) {magnitude : Nat} (h : magnitude ≤ format.infinity) :
    (ofParts negative magnitude).key = signed negative magnitude ∧ (ofParts negative magnitude).isNaN = false := by
  have hlt := h.trans_lt infinity_lt
  rw [key, isNegative_ofParts negative hlt, isNaN, magnitude_ofParts negative hlt]
  exact ⟨rfl, decide_eq_false (Nat.not_lt.2 h)⟩

theorem isNaN_of_isFinite (h : x.isFinite) : x.isNaN = false := by
  simp only [isFinite, isNaN, decide_eq_true_eq, decide_eq_false_iff_not] at h ⊢
  omega

/-- The rational number that a finite float stands for. -/
def value (x : Binary32) : ℚ :=
  if x.isNegative then -format.value x.magnitude else format.value x.magnitude

theorem cast_signed (negative : Bool) (n : Nat) : (signed negative n : ℚ) = if negative then -(n : ℚ) else n := by
  cases negative <;> simp [signed]

theorem value_eq (x : Binary32) :
    x.value = signed x.isNegative (format.decode x.magnitude).1 * 2 ^ (format.decode x.magnitude).2 := by
  rw [value, cast_signed]
  split
  · rw [neg_mul]
    rfl
  · rfl

/-- The number that a float with a given key stands for. -/
def ofKey (k : Int) : ℚ := k.sign * format.value k.natAbs

theorem ofKey_natCast (n : Nat) : ofKey n = format.value n := by
  rcases Nat.eq_zero_or_pos n with rfl | hpos
  · simp [ofKey, FloatFormat.value_zero]
  · have hsign : (n : Int).sign = 1 := Int.sign_eq_one_of_pos (by exact_mod_cast hpos)
    rw [ofKey, hsign, Int.cast_one, one_mul, Int.natAbs_natCast]

theorem ofKey_neg (k : Int) : ofKey (-k) = -ofKey k := by
  simp only [ofKey, Int.sign_neg, Int.natAbs_neg, Int.cast_neg, neg_mul]

/-- A greater key is that of a greater number. -/
theorem ofKey_le_ofKey_iff {k l : Int} : ofKey k ≤ ofKey l ↔ k ≤ l := by
  refine (strictMono_of_odd_strictMonoOn_nonneg ofKey_neg fun a ha b _ hlt => ?_).le_iff_le
  obtain ⟨m, rfl⟩ := Int.eq_ofNat_of_zero_le (Set.mem_Ici.1 ha)
  obtain ⟨n, rfl⟩ := Int.eq_ofNat_of_zero_le ((Int.natCast_nonneg m).trans hlt.le)
  rw [ofKey_natCast, ofKey_natCast]
  exact FloatFormat.value_strictMono (by exact_mod_cast hlt)

theorem ofKey_key (x : Binary32) : ofKey x.key = x.value := by
  unfold key value
  split
  · rw [ofKey_neg, ofKey_natCast]
  · exact ofKey_natCast _

/-- Floats are compared as the numbers that they stand for. -/
theorem key_le_key_iff : x.key ≤ y.key ↔ x.value ≤ y.value := by
  rw [← ofKey_key, ← ofKey_key, ofKey_le_ofKey_iff]

theorem view_of_isFinite (h : x.isFinite) :
    x.view = .finite x.isNegative (format.decode x.magnitude).1 (format.decode x.magnitude).2 := by
  have hne : x.magnitude ≠ format.infinity := Nat.ne_of_lt (of_decide_eq_true h)
  simp [view, isNaN_of_isFinite h, hne]

theorem isFinite_neg (h : x.isFinite) : x.neg.isFinite ∧ x.neg.value = -x.value := by
  have hmagnitude := magnitude_ofParts (!x.isNegative) x.magnitude_lt
  have hsign := isNegative_ofParts (!x.isNegative) x.magnitude_lt
  rw [isFinite, value, neg, hmagnitude, hsign]
  refine ⟨h, ?_⟩
  cases hnegative : x.isNegative <;> simp [value, hnegative]

/-! ## Rounded results -/

/-- A rational number is rounded to a float: its magnitude is rounded to the nearest one, and it keeps its sign. -/
def RoundsTo (v : ℚ) (x : Binary32) : Prop :=
  ∃ num den : Nat, 0 < den ∧ |v| = num / den ∧ x.isNaN = false ∧ x.key = signed (v < 0) (format.nearest num den)

theorem roundsTo_zero (negative : Bool) : RoundsTo 0 (zero negative) := by
  obtain ⟨hkey, hnan⟩ := key_ofParts negative (Nat.zero_le format.infinity)
  refine ⟨0, 1, Nat.one_pos, by simp, hnan, ?_⟩
  rw [zero, hkey]
  cases negative <;> rfl

theorem roundsTo_ofRatio (negative : Bool) (num : Nat) {den : Nat} (hden : 0 < den) :
    RoundsTo (if negative then -(num / den) else num / den) (ofRatio negative num den) := by
  obtain ⟨hkey, hnan⟩ := key_ofParts negative (format.nearest_le_infinity num den)
  have hratio : (0 : ℚ) ≤ num / den := by positivity
  refine ⟨num, den, hden, ?_, hnan, hkey.trans ?_⟩
  · split <;> simp only [abs_neg, abs_of_nonneg hratio]
  · cases negative with
    | false => simp only [Bool.false_eq_true, if_false, not_lt.2 hratio, decide_false]
    | true =>
      rcases Nat.eq_zero_or_pos num with rfl | hnum
      · -- both zeros have the same key
        simp [FloatFormat.nearest, signed]
      · have hneg : -(num / den : ℚ) < 0 := neg_lt_zero.2 (by positivity)
        simp only [if_true, hneg, decide_true]

theorem roundsTo_ofDyadic (negative : Bool) (significand : Nat) (exponent : Int) :
    RoundsTo (if negative then -(significand * 2 ^ exponent) else significand * 2 ^ exponent)
      (ofDyadic negative significand exponent) := by
  have hrounds := roundsTo_ofRatio negative (significand <<< exponent.toNat)
    (shiftLeft_pos Nat.one_pos (-exponent).toNat)
  rw [cast_shiftLeft, cast_shiftLeft, Nat.cast_one, one_mul, mul_div_assoc, zpow_toNat_div] at hrounds
  exact hrounds

/-- A greater number is rounded to no lesser float. -/
theorem RoundsTo.mono {v w : ℚ} (hx : RoundsTo v x) (hy : RoundsTo w y) (h : v ≤ w) : x ≤ y := by
  obtain ⟨num, den, hden, hv, hnan, hkey⟩ := hx
  obtain ⟨num', den', hden', hw, hnan', hkey'⟩ := hy
  refine le_iff.2 ⟨hnan, hnan', ?_⟩
  rw [hkey, hkey']
  by_cases hvneg : v < 0
  · by_cases hwneg : w < 0
    · have hle : (num' / den' : ℚ) ≤ num / den := by
        rw [← hv, ← hw, abs_of_neg hvneg, abs_of_neg hwneg]
        exact neg_le_neg h
      have := FloatFormat.nearest_mono two_le_precision hden' hden hle
      simp only [signed, hvneg, hwneg, decide_true, if_true]
      omega
    · simp only [signed, hvneg, hwneg, decide_true, decide_false, if_true, Bool.false_eq_true, if_false]
      omega
  · have hwneg : ¬ w < 0 := fun hwneg => hvneg (h.trans_lt hwneg)
    have hle : (num / den : ℚ) ≤ num' / den' := by
      rw [← hv, ← hw, abs_of_nonneg (not_lt.1 hvneg), abs_of_nonneg (not_lt.1 hwneg)]
      exact h
    have := FloatFormat.nearest_mono two_le_precision hden hden' hle
    simp only [signed, hvneg, hwneg, decide_false, Bool.false_eq_true, if_false]
    omega

/-- A term of a sum in units of a lower power of two. -/
theorem cast_signed_shiftLeft (negative : Bool) (n : Nat) {e low : Int} (h : low ≤ e) :
    (signed negative (n <<< (e - low).toNat) : ℚ) * 2 ^ low = signed negative n * 2 ^ e := by
  obtain ⟨k, rfl⟩ := Int.le.dest h
  have hk : (low + k - low).toNat = k := by omega
  rw [hk, cast_signed, cast_signed, cast_shiftLeft, zpow_add₀ (by norm_num), zpow_natCast]
  split <;> ring

/-- The sum of finite floats is rounded once. -/
theorem roundsTo_add (hx : x.isFinite) (hy : y.isFinite) : RoundsTo (x.value + y.value) (add x y) := by
  unfold add
  rw [view_of_isFinite hx, view_of_isFinite hy, value_eq, value_eq]
  generalize (format.decode x.magnitude).1 = m, (format.decode x.magnitude).2 = e
  generalize (format.decode y.magnitude).1 = n, (format.decode y.magnitude).2 = k
  simp only
  have hsum : ((signed x.isNegative (m <<< (e - min e k).toNat) + signed y.isNegative (n <<< (k - min e k).toNat) : Int) : ℚ)
      * 2 ^ min e k = signed x.isNegative m * 2 ^ e + signed y.isNegative n * 2 ^ k := by
    rw [Int.cast_add, add_mul, cast_signed_shiftLeft _ _ (min_le_left e k), cast_signed_shiftLeft _ _ (min_le_right e k)]
  rw [← hsum]
  generalize signed x.isNegative (m <<< (e - min e k).toNat) + signed y.isNegative (n <<< (k - min e k).toNat) = sum
  generalize min e k = low
  split
  · next hzero =>
    rw [hzero, Int.cast_zero, zero_mul]
    exact roundsTo_zero _
  · have hvalue : (sum * 2 ^ low : ℚ) =
        if decide (sum < 0) then -((sum.natAbs : ℚ) * 2 ^ low) else (sum.natAbs : ℚ) * 2 ^ low := by
      rw [Nat.cast_natAbs, Int.cast_abs]
      split
      · next hneg => rw [abs_of_neg (by exact_mod_cast of_decide_eq_true hneg), neg_mul, neg_neg]
      · next hnonneg => rw [abs_of_nonneg (by exact_mod_cast not_lt.1 (of_decide_eq_false (by simpa using hnonneg)))]
    rw [hvalue]
    exact roundsTo_ofDyadic _ _ _

theorem roundsTo_sub (hx : x.isFinite) (hy : y.isFinite) : RoundsTo (x.value - y.value) (x - y) := by
  obtain ⟨hfinite, hvalue⟩ := isFinite_neg hy
  rw [sub_eq_add_neg, ← hvalue]
  exact roundsTo_add hx hfinite

/-- The quotient of finite floats is rounded once. -/
theorem roundsTo_div (hx : x.isFinite) (hy : y.isFinite) (hzero : y.value ≠ 0) :
    RoundsTo (x.value / y.value) (x / y) := by
  change RoundsTo _ (div x y)
  unfold div
  rw [view_of_isFinite hx, view_of_isFinite hy, value_eq, value_eq] at *
  generalize (format.decode x.magnitude).1 = m, (format.decode x.magnitude).2 = e at *
  generalize (format.decode y.magnitude).1 = n, (format.decode y.magnitude).2 = k at *
  have hn : n ≠ 0 := by
    rintro rfl
    simp [cast_signed] at hzero
  simp only [if_neg hn]
  have hrounds := roundsTo_ofRatio (x.isNegative != y.isNegative) (m <<< (e - k).toNat)
    (shiftLeft_pos (Nat.pos_of_ne_zero hn) (k - e).toNat)
  have hratio : ((m <<< (e - k).toNat : Nat) / (n <<< (k - e).toNat : Nat) : ℚ) = m * 2 ^ e / (n * 2 ^ k) := by
    rw [cast_shiftLeft, cast_shiftLeft, mul_div_mul_comm, mul_div_mul_comm, ← zpow_sub₀ (by norm_num),
      ← zpow_toNat_div, neg_sub]
  have hvalue : (signed x.isNegative m * 2 ^ e / (signed y.isNegative n * 2 ^ k) : ℚ) =
      if x.isNegative != y.isNegative then -((m : ℚ) * 2 ^ e / (n * 2 ^ k)) else (m : ℚ) * 2 ^ e / (n * 2 ^ k) := by
    rw [cast_signed, cast_signed]
    cases x.isNegative <;> cases y.isNegative <;> simp [neg_div, div_neg]
  rw [hvalue, ← hratio]
  exact hrounds

/-! ## What is not finite -/

theorem view_of_isNaN (h : x.isNaN) : x.view = .nan := if_pos h

/-- A number that is not finite is infinite. -/
theorem exists_view_eq_infinite (hnan : x.isNaN = false) (h : x.isFinite = false) : ∃ s, x.view = .infinite s := by
  have hmagnitude : x.magnitude = format.infinity := by
    simp only [isNaN, isFinite, decide_eq_false_iff_not] at hnan h
    omega
  exact ⟨x.isNegative, by simp [view, hnan, hmagnitude]⟩

theorem of_view_eq_infinite {s : Bool} (h : x.view = .infinite s) :
    x.isNaN = false ∧ x.magnitude = format.infinity ∧ x.isNegative = s := by
  unfold view at h
  split at h
  · cases h
  · next hnan =>
    split at h
    · next hmagnitude => exact ⟨Bool.eq_false_iff.2 hnan, hmagnitude, View.infinite.inj h⟩
    · cases h

theorem view_infinity (s : Bool) : (infinity s).view = .infinite s := by cases s <;> rfl

theorem view_neg_of_infinite {s : Bool} (h : x.view = .infinite s) : x.neg.view = .infinite !s := by
  obtain ⟨-, hmagnitude, hsign⟩ := of_view_eq_infinite h
  rw [neg, hmagnitude, hsign]
  exact view_infinity _

/-- Numbers lie between the infinities. -/
theorem key_bounds (h : x.isNaN = false) : -(format.infinity : Int) ≤ x.key ∧ x.key ≤ format.infinity := by
  have hmagnitude : x.magnitude ≤ format.infinity := by simpa only [isNaN, decide_eq_false_iff_not, not_lt] using h
  unfold key
  split <;> omega

theorem view_eq_infinite_iff {s : Bool} (h : x.isNaN = false) :
    x.view = .infinite s ↔ x.key = signed s format.infinity := by
  have hpos : 0 < format.infinity := by decide
  constructor
  · intro hview
    obtain ⟨-, hmagnitude, hsign⟩ := of_view_eq_infinite hview
    rw [key, hmagnitude, hsign, signed]
  · intro hkey
    unfold key signed at hkey
    have hmagnitude : x.magnitude = format.infinity := by
      split at hkey <;> split at hkey <;> omega
    have hsign : x.isNegative = s := by
      rw [hmagnitude] at hkey
      cases hnegative : x.isNegative <;> cases s <;> simp [hnegative] at hkey ⊢ <;> omega
    simp [view, h, hmagnitude, hsign]

/-- Every number is at most the positive infinity. -/
theorem le_positive (hx : x.isNaN = false) (hy : y.view = .infinite false) : x ≤ y := by
  have hnan := (of_view_eq_infinite hy).1
  refine le_iff.2 ⟨hx, hnan, ?_⟩
  rw [(view_eq_infinite_iff hnan).1 hy]
  exact (key_bounds hx).2

/-- Every number is at least the negative infinity. -/
theorem negative_le (hx : x.view = .infinite true) (hy : y.isNaN = false) : x ≤ y := by
  have hnan := (of_view_eq_infinite hx).1
  refine le_iff.2 ⟨hnan, hy, ?_⟩
  rw [(view_eq_infinite_iff hnan).1 hx]
  exact (key_bounds hy).1

/-- Nothing but the positive infinity is as great as it. -/
theorem positive_of_le (h : x ≤ y) (hx : x.view = .infinite false) : y.view = .infinite false := by
  obtain ⟨hnan, hnan', hkey⟩ := le_iff.1 h
  rw [(view_eq_infinite_iff hnan).1 hx] at hkey
  exact (view_eq_infinite_iff hnan').2 (le_antisymm (key_bounds hnan').2 hkey)

/-- Nothing but the negative infinity is as small as it. -/
theorem negative_of_le (h : x ≤ y) (hy : y.view = .infinite true) : x.view = .infinite true := by
  obtain ⟨hnan, hnan', hkey⟩ := le_iff.1 h
  rw [(view_eq_infinite_iff hnan').1 hy] at hkey
  exact (view_eq_infinite_iff hnan).2 (le_antisymm hkey (key_bounds hnan).1)

theorem isNaN_nan : nan.isNaN = true := by decide

/-- The difference with an infinite float is infinite, if it is a number. -/
theorem sub_of_infinite_left {s : Bool} (hx : x.view = .infinite s) (h : (x - z).isNaN = false) :
    (x - z).view = .infinite s := by
  change (add x z.neg).isNaN = false at h
  change (add x z.neg).view = .infinite s
  unfold add at *
  rw [hx] at *
  cases hz : z.neg.view with
  | nan => simp [hz, isNaN_nan] at h
  | infinite t =>
    simp only [hz] at h ⊢
    split at h
    · next heq => rw [if_pos heq, view_infinity]
    · simp [isNaN_nan] at h
  | finite => simp only [view_infinity]

theorem sub_of_infinite_right {s : Bool} (hz : z.view = .infinite s) (h : (x - z).isNaN = false) :
    (x - z).view = .infinite !s := by
  change (add x z.neg).isNaN = false at h
  change (add x z.neg).view = .infinite !s
  unfold add at *
  rw [view_neg_of_infinite hz] at *
  cases hx : x.view with
  | nan => simp [hx, isNaN_nan] at h
  | infinite t =>
    simp only [hx] at h ⊢
    split at h
    · next heq => rw [if_pos heq, view_infinity, heq]
    · simp [isNaN_nan] at h
  | finite => simp only [view_infinity]

theorem isNaN_of_sub (h : (x - z).isNaN = false) : x.isNaN = false ∧ z.isNaN = false := by
  change (add x z.neg).isNaN = false at h
  unfold add at h
  constructor
  · by_contra hx
    simp [view_of_isNaN (Bool.eq_true_of_not_eq_false hx), isNaN_nan] at h
  · by_contra hz
    have hz := Bool.eq_true_of_not_eq_false hz
    have hneg : z.neg.isNaN = true := by
      rw [isNaN, neg, magnitude_ofParts _ z.magnitude_lt]
      exact hz
    rw [view_of_isNaN hneg] at h
    cases hx : x.view <;> simp [hx, isNaN_nan] at h

/-- A number is finite or one of the infinities. -/
theorem finite_or_infinite (h : x.isNaN = false) :
    x.isFinite ∨ x.view = .infinite false ∨ x.view = .infinite true := by
  cases hfinite : x.isFinite with
  | true => exact .inl rfl
  | false =>
    obtain ⟨_ | _, hs⟩ := exists_view_eq_infinite h hfinite
    · exact .inr (.inl hs)
    · exact .inr (.inr hs)

/-- An operation keeps the order of its operands if it does so for finite ones and leaves infinite ones as they are. -/
theorem le_of_le (op : Binary32 → Binary32)
    (hfinite : ∀ {x y : Binary32}, x.isFinite → y.isFinite → x.value ≤ y.value → op x ≤ op y)
    (hinfinite : ∀ {x : Binary32} {s}, x.view = .infinite s → (op x).isNaN = false → (op x).view = .infinite s)
    (h : x ≤ y) (hx : (op x).isNaN = false) (hy : (op y).isNaN = false) : op x ≤ op y := by
  obtain ⟨hnan, hnan', hkey⟩ := le_iff.1 h
  rcases finite_or_infinite hnan with hx' | hpositive | hnegative
  · rcases finite_or_infinite hnan' with hy' | hpositive' | hnegative'
    · exact hfinite hx' hy' (key_le_key_iff.1 hkey)
    · exact le_positive hx (hinfinite hpositive' hy)
    · exact negative_le (hinfinite (negative_of_le h hnegative') hx) hy
  · exact le_positive hx (hinfinite (positive_of_le h hpositive) hy)
  · exact negative_le (hinfinite hnegative hx) hy

/-- Differences grow with the first operand. -/
theorem sub_le_sub (h : x ≤ y) (hx : (x - z).isNaN = false) (hy : (y - z).isNaN = false) : x - z ≤ y - z := by
  rcases finite_or_infinite (isNaN_of_sub hx).2 with hz | hz | hz
  · refine le_of_le (· - z) (fun hx hy hle => ?_) sub_of_infinite_left h hx hy
    exact (roundsTo_sub hx hz).mono (roundsTo_sub hy hz) (sub_le_sub_right hle _)
  · exact negative_le (sub_of_infinite_right hz hx) hy
  · exact le_positive hx (sub_of_infinite_right hz hy)

/-! ### Quotients -/

theorem isNegative_eq_false (h : 0 < z) : z.isNegative = false := by
  obtain ⟨-, -, hkey⟩ := lt_iff.1 h
  have hzero : key 0 = 0 := rfl
  rw [hzero, key] at hkey
  split at hkey
  · omega
  · next hnegative => exact Bool.eq_false_iff.2 hnegative

theorem value_pos (h : 0 < z) : 0 < z.value := by
  obtain ⟨-, -, hkey⟩ := lt_iff.1 h
  have hle := mt (key_le_key_iff (x := z) (y := 0)).2 (not_le.2 hkey)
  have hzero : value 0 = 0 := FloatFormat.value_zero
  rwa [hzero, not_le] at hle

theorem isNaN_of_div (h : (x / z).isNaN = false) : x.isNaN = false ∧ z.isNaN = false := by
  change (div x z).isNaN = false at h
  unfold div at h
  constructor
  · by_contra hx
    simp [view_of_isNaN (Bool.eq_true_of_not_eq_false hx), isNaN_nan] at h
  · by_contra hz
    rw [view_of_isNaN (Bool.eq_true_of_not_eq_false hz)] at h
    cases hx : x.view <;> simp [hx, isNaN_nan] at h

/-- The quotient of an infinite float by a finite positive one is the infinite float. -/
theorem div_of_infinite_left {s : Bool} (hx : x.view = .infinite s) (hz : z.isFinite) (hpos : 0 < z) :
    (x / z).view = .infinite s := by
  change (div x z).view = .infinite s
  unfold div
  rw [hx, view_of_isFinite hz, isNegative_eq_false hpos]
  simp only [Bool.bne_false, view_infinity]

/-- The quotient by an infinite float is zero, if it is a number. -/
theorem key_div_of_infinite_right {s : Bool} (hz : z.view = .infinite s) (h : (x / z).isNaN = false) :
    (x / z).key = 0 := by
  change (div x z).isNaN = false at h
  change (div x z).key = 0
  unfold div at *
  rw [hz] at *
  cases hx : x.view with
  | nan => simp [hx, isNaN_nan] at h
  | infinite => simp [hx, isNaN_nan] at h
  | finite t =>
    simp only
    cases t != s <;> rfl

/-- Quotients by a positive divisor grow with the first operand. -/
theorem div_le_div (h : x ≤ y) (hpos : 0 < z) (hx : (x / z).isNaN = false) (hy : (y / z).isNaN = false) :
    x / z ≤ y / z := by
  rcases finite_or_infinite (isNaN_of_div hx).2 with hz | hz | hz
  · have hvalue := value_pos hpos
    refine le_of_le (· / z) (fun hx hy hle => ?_) (fun hx _ => div_of_infinite_left hx hz hpos) h hx hy
    exact (roundsTo_div hx hz hvalue.ne').mono (roundsTo_div hy hz hvalue.ne') (div_le_div_of_nonneg_right hle hvalue.le)
  all_goals
    refine le_iff.2 ⟨hx, hy, ?_⟩
    rw [key_div_of_infinite_right hz hx, key_div_of_infinite_right hz hy]

end Binary32
end Armature
