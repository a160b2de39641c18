import Armature.Number.Decimal.Basic

/-!
# Numerals read back

A numeral that is written in front of other text is read back as it is, with the same point, places and exponent, if the
text does not go on with a numeral (`Decimal.read?_render`).
-/

namespace Armature.Decimal

/-! ## Digits -/

/-- A text does not start with a digit. -/
def NoDigit (cs : List Char) : Prop := ∀ c ∈ cs.head?, c.isDigit = false

/-- A text does not start with anything that could belong to a numeral in front of it. -/
def Ends (cs : List Char) : Prop := ∀ c ∈ cs.head?, c.isDigit = false ∧ c ≠ '.' ∧ c ≠ 'e' ∧ c ≠ 'E'

theorem noDigit_cons {c : Char} (h : c.isDigit = false) (cs : List Char) : NoDigit (c :: cs) := by
  rintro _ ⟨⟩
  exact h

theorem Ends.noDigit {cs : List Char} (h : Ends cs) : NoDigit cs := fun c hc => (h c hc).1

theorem readDigits?_append {ds rest : List Char} (hne : ds ≠ []) (hds : ∀ c ∈ ds, c.isDigit) (hrest : NoDigit rest) :
    readDigits? (ds ++ rest) = some (ds, rest) := by
  have htake : (ds ++ rest).takeWhile Char.isDigit = ds := by
    rw [List.takeWhile_append_of_pos hds]
    cases rest with
    | nil => simp
    | cons c cs => simp [hrest c rfl]
  have hdrop : (ds ++ rest).dropWhile Char.isDigit = rest := by
    rw [List.dropWhile_append_of_pos hds]
    cases rest with
    | nil => rfl
    | cons c cs => simp [hrest c rfl]
  unfold readDigits?
  rw [htake, hdrop]
  cases ds with
  | nil => exact absurd rfl hne
  | cons d ds => rfl

/-- Only zero is written with a zero in front. -/
theorem head?_toDigits {n : Nat} (h : (Nat.toDigits 10 n).head? = some '0') : n = 0 := by
  induction n using Nat.strongRecOn with
  | ind n ih =>
    rw [Nat.toDigits_eq_if (by decide)] at h
    split at h
    · next hlt =>
      have : ∀ d < 10, Nat.digitChar d = '0' → d = 0 := by decide
      exact this n hlt (by simpa using h)
    · next hle =>
      rw [List.head?_append, Option.or_of_isSome (List.isSome_head?.2 Nat.toDigits_ne_nil)] at h
      have := ih (n / 10) (by omega) h
      omega

/-- All digits, with zeros in front as far as the places need them. -/
def paddedDigits (d : Decimal) : List Char :=
  List.replicate (d.places + 1 - (Nat.toDigits 10 d.coefficient).length) '0' ++ Nat.toDigits 10 d.coefficient

theorem places_lt_length_paddedDigits (d : Decimal) : d.places < d.paddedDigits.length := by
  simp only [paddedDigits, List.length_append, List.length_replicate]
  omega

theorem isDigit_of_mem_paddedDigits {d : Decimal} {c : Char} (h : c ∈ d.paddedDigits) : c.isDigit := by
  rcases List.mem_append.1 h with h | h
  · rw [(List.mem_replicate.1 h).2]
    rfl
  · exact Nat.isDigit_of_mem_toDigits (by decide) (by decide) h

/-- There is a zero in front only if nothing else stands before the point. -/
theorem length_paddedDigits {d : Decimal} (h : d.paddedDigits.head? = some '0') :
    d.paddedDigits.length = d.places + 1 := by
  have hpos : 0 < (Nat.toDigits 10 d.coefficient).length := Nat.length_toDigits_pos
  simp only [paddedDigits, List.length_append, List.length_replicate]
  by_cases hpad : d.places + 1 - (Nat.toDigits 10 d.coefficient).length = 0
  · have hzero : d.coefficient = 0 := head?_toDigits (by simpa [paddedDigits, hpad] using h)
    simp only [hzero, Nat.toDigits_zero, List.length_singleton] at hpad ⊢
    omega
  · omega

section

variable (d : Decimal)

theorem digits_eq : d.digits =
    (d.paddedDigits.take (d.paddedDigits.length - d.places), d.paddedDigits.drop (d.paddedDigits.length - d.places)) :=
  List.splitAt_eq ..

theorem digits_fst_ne_nil : d.digits.1 ≠ [] := by
  have := places_lt_length_paddedDigits d
  rw [digits_eq, ← List.length_pos_iff, List.length_take]
  omega

theorem isDigit_of_mem_digits_fst : ∀ c ∈ d.digits.1, c.isDigit := fun _ hc =>
  isDigit_of_mem_paddedDigits (List.mem_of_mem_take (d.digits_eq ▸ hc))

theorem isDigit_of_mem_digits_snd : ∀ c ∈ d.digits.2, c.isDigit := fun _ hc =>
  isDigit_of_mem_paddedDigits (List.mem_of_mem_drop (d.digits_eq ▸ hc))

/-- A zero before the point stands alone. -/
theorem digits_fst_ne_zero_cons (c : Char) (cs : List Char) : d.digits.1 ≠ '0' :: c :: cs := by
  intro h
  rw [digits_eq] at h
  have hlength := congrArg List.length h
  have hhead : d.paddedDigits.head? = some '0' := by
    have := congrArg List.head? h
    simpa [List.head?_take, Nat.sub_eq_zero_iff_le, places_lt_length_paddedDigits d] using this
  simp only [List.length_take, length_paddedDigits hhead, List.length_cons] at hlength
  omega

end

/-! ## The parts of a numeral -/

theorem readSign_append (negative : Bool) {ds rest : List Char} (hne : ds ≠ []) (hds : ∀ c ∈ ds, c.isDigit) :
    readSign ((if negative then ['-'] else []) ++ (ds ++ rest)) = (negative, ds ++ rest) := by
  cases negative with
  | true => rfl
  | false =>
    obtain ⟨d, ds, rfl⟩ := List.exists_cons_of_ne_nil hne
    have hd : d ≠ '-' := by
      rintro rfl
      exact absurd (hds '-' (by simp)) (by decide)
    unfold readSign
    split
    · next h => exact absurd (List.cons.inj h).1 hd
    · rfl

theorem readWhole?_digits (d : Decimal) {rest : List Char} (hrest : NoDigit rest) :
    readWhole? (d.digits.1 ++ rest) = some (d.digits.1, rest) := by
  unfold readWhole?
  rw [readDigits?_append d.digits_fst_ne_nil d.isDigit_of_mem_digits_fst hrest]
  split
  · next c cs after h => exact absurd (Prod.mk.inj (Option.some.inj h)).1 (d.digits_fst_ne_zero_cons c cs)
  · rfl

theorem readFraction?_append {ds rest : List Char} (hds : ∀ c ∈ ds, c.isDigit) (hrest : NoDigit rest)
    (hpoint : '.' ∉ rest.head?) :
    readFraction? ((if ds.isEmpty then [] else '.' :: ds) ++ rest) = some (ds, rest) := by
  cases ds with
  | nil =>
    unfold readFraction?
    split
    · next h => exact absurd (by simp [show rest = _ from h]) hpoint
    · rfl
  | cons d ds => exact readDigits?_append (List.cons_ne_nil d ds) hds hrest

/-- The text of an exponent, if there is one. -/
def exponentText (exponent : Option Int) : List Char := (exponent.map renderExponent).getD []

theorem readExponent?_append (exponent : Option Int) {rest : List Char} (hrest : Ends rest) :
    readExponent? (exponentText exponent ++ rest) = some (exponent, rest) := by
  cases exponent with
  | none =>
    cases rest with
    | nil => rfl
    | cons c cs =>
      obtain ⟨-, -, he, hE⟩ := hrest c rfl
      simp [exponentText, readExponent?, he, hE]
  | some e =>
    have hread : readDigits? (Nat.toDigits 10 e.natAbs ++ rest) = some (Nat.toDigits 10 e.natAbs, rest) :=
      readDigits?_append Nat.toDigits_ne_nil (fun c hc => Nat.isDigit_of_mem_toDigits (by decide) (by decide) hc)
        hrest.noDigit
    have hsign (cs : List Char) : readExponentSign ((if e < 0 then '-' else '+') :: cs) = (decide (e < 0), cs) := by
      split <;> simp [readExponentSign, readSign, *]
    change readExponent? ('e' :: (if e < 0 then '-' else '+') :: (Nat.toDigits 10 e.natAbs ++ rest)) = _
    rw [readExponent?, if_pos (.inl rfl), hsign]
    simp only [hread, Option.map_some, Nat.ofDigitChars_ten_toDigits, decide_eq_true_eq]
    congr 3
    split <;> omega

/-! ## Numerals -/

theorem noDigit_exponentText (exponent : Option Int) {rest : List Char} (hrest : Ends rest) :
    NoDigit (exponentText exponent ++ rest) ∧ '.' ∉ (exponentText exponent ++ rest).head? := by
  cases exponent with
  | none => exact ⟨hrest.noDigit, fun h => (hrest '.' h).2.1 rfl⟩
  | some e => exact ⟨noDigit_cons (by decide) _, by simp [exponentText, renderExponent]⟩

theorem render_eq (d : Decimal) : d.render =
    (if d.negative then ['-'] else []) ++ d.digits.1 ++ (if d.digits.2.isEmpty then [] else '.' :: d.digits.2) ++
      exponentText d.exponent := rfl

/-- The text of a numeral starts with a minus sign or a digit. -/
theorem exists_render_eq_cons (d : Decimal) : ∃ c cs, d.render = c :: cs ∧ (c = '-' ∨ c.isDigit) := by
  obtain ⟨c, cs, hdigits⟩ := List.exists_cons_of_ne_nil d.digits_fst_ne_nil
  have hc := d.isDigit_of_mem_digits_fst c (by simp [hdigits])
  rw [render_eq, hdigits]
  cases d.negative with
  | true => exact ⟨'-', _, rfl, .inl rfl⟩
  | false => exact ⟨c, _, rfl, .inr hc⟩

/-- A numeral is read back from its text. -/
theorem read?_render (d : Decimal) {rest : List Char} (hrest : Ends rest) : read? (d.render ++ rest) = some (d, rest) := by
  obtain ⟨hnodigit, hpoint⟩ := noDigit_exponentText d.exponent hrest
  have hsign (text : List Char) : readSign ((if d.negative then ['-'] else []) ++ (d.digits.1 ++ text)) =
      (d.negative, d.digits.1 ++ text) :=
    readSign_append d.negative d.digits_fst_ne_nil d.isDigit_of_mem_digits_fst
  have hwhole : NoDigit ((if d.digits.2.isEmpty then [] else '.' :: d.digits.2) ++ (exponentText d.exponent ++ rest)) := by
    split
    · exact hnodigit
    · exact noDigit_cons (by decide) _
  simp only [render_eq, List.append_assoc, read?, hsign, readWhole?_digits d hwhole, Option.bind_some,
    readFraction?_append d.isDigit_of_mem_digits_snd hnodigit hpoint, readExponent?_append d.exponent hrest,
    Option.map_some, ofDigitChars_digits, length_digits_snd]

end Armature.Decimal
