/-!
Decimal numerals as JSON writes them.

A numeral keeps what its text says: whether there is a point, how many digits follow it, and whether
there is an exponent. `render` writes a numeral, and `read?` takes one off the front of a text.
-/

namespace Armature

/-- The numeral of `coefficient * 10 ^ (exponent - places)` with a sign, written with `places` digits after
    the point, and with an exponent if there is one. -/
structure Decimal where
  negative : Bool
  /-- All digits, before and after the point, as one number. -/
  coefficient : Nat
  /-- The number of digits after the point; without any, there is no point. -/
  places : Nat
  exponent : Option Int
deriving DecidableEq, Inhabited

namespace Decimal

def ofNat (n : Nat) : Decimal := ⟨false, n, 0, none⟩

/-- Whether the numeral is written without point and exponent. -/
def isInteger (d : Decimal) : Bool := d.places == 0 && d.exponent.isNone

/-! ### Text -/

/-- The text of an exponent: its sign is always written. -/
def renderExponent (e : Int) : List Char :=
  'e' :: (if e < 0 then '-' else '+') :: Nat.toDigits 10 e.natAbs

/-- The digits before and after the point. There is at least one before it. -/
def digits (d : Decimal) : List Char × List Char :=
  let ds := Nat.toDigits 10 d.coefficient
  let ds := List.replicate (d.places + 1 - ds.length) '0' ++ ds
  ds.splitAt (ds.length - d.places)

/-- There are as many digits after the point as the numeral has places. -/
theorem length_digits_snd (d : Decimal) : d.digits.2.length = d.places := by
  simp only [digits, List.splitAt_eq, List.length_drop, List.length_append, List.length_replicate]
  omega

/-- The digits make up the coefficient. -/
theorem ofDigitChars_digits (d : Decimal) :
    Nat.ofDigitChars 10 (d.digits.1 ++ d.digits.2) 0 = d.coefficient := by
  have zeros (k : Nat) (cs : List Char) :
      Nat.ofDigitChars 10 (List.replicate k '0' ++ cs) 0 = Nat.ofDigitChars 10 cs 0 := by
    induction k with
    | zero => rfl
    | succ k ih => simpa [List.replicate_succ, Nat.ofDigitChars_cons] using ih
  simp only [digits, List.splitAt_eq, List.take_append_drop, zeros]
  exact Nat.ofDigitChars_ten_toDigits

/-- The text of a numeral. -/
def render (d : Decimal) : List Char :=
  let (whole, fraction) := d.digits
  (if d.negative then ['-'] else []) ++ whole
    ++ (if fraction.isEmpty then [] else '.' :: fraction)
    ++ (d.exponent.map renderExponent).getD []

/-- Takes off a minus sign, if there is one. -/
def readSign : List Char → Bool × List Char
  | '-' :: cs => (true, cs)
  | cs => (false, cs)

/-- Takes the digits off the front of a text, at least one of them. -/
def readDigits? (cs : List Char) : Option (List Char × List Char) :=
  match cs.takeWhile Char.isDigit with
  | [] => none
  | ds => some (ds, cs.dropWhile Char.isDigit)

/-- Takes off the digits before the point. A zero stands alone. -/
def readWhole? (cs : List Char) : Option (List Char × List Char) :=
  match readDigits? cs with
  | some ('0' :: _ :: _, _) => none
  | result => result

/-- Takes off the point and the digits after it, if there is a point. -/
def readFraction? : List Char → Option (List Char × List Char)
  | '.' :: cs => readDigits? cs
  | cs => some ([], cs)

/-- Takes off the sign of an exponent, which may be a plus. -/
def readExponentSign : List Char → Bool × List Char
  | '+' :: cs => (false, cs)
  | cs => readSign cs

/-- Takes off an exponent, if there is one. -/
def readExponent? : List Char → Option (Option Int × List Char)
  | c :: cs =>
    if c = 'e' ∨ c = 'E' then
      let (negative, cs) := readExponentSign cs
      (readDigits? cs).map fun (digits, rest) =>
        let size : Int := Nat.ofDigitChars 10 digits 0
        (some (if negative then -size else size), rest)
    else some (none, c :: cs)
  | [] => some (none, [])

/-- Takes a numeral off the front of a text: as much of it as belongs to the numeral. -/
def read? (cs : List Char) : Option (Decimal × List Char) :=
  let (negative, cs) := readSign cs
  (readWhole? cs).bind fun (whole, cs) =>
  (readFraction? cs).bind fun (fraction, cs) =>
  (readExponent? cs).map fun (exponent, cs) =>
    (⟨negative, Nat.ofDigitChars 10 (whole ++ fraction) 0, fraction.length, exponent⟩, cs)

/-! Reading a numeral uses up a part of the text. -/

theorem length_readSign (cs : List Char) : (readSign cs).2.length ≤ cs.length := by
  unfold readSign; split <;> simp

theorem length_readExponentSign (cs : List Char) : (readExponentSign cs).2.length ≤ cs.length := by
  unfold readExponentSign
  split
  · simp
  · exact length_readSign _

theorem length_readDigits? {cs ds rest : List Char} (h : readDigits? cs = some (ds, rest)) :
    rest.length < cs.length := by
  unfold readDigits? at h
  split at h
  · simp at h
  · next h' =>
    have := congrArg List.length (List.takeWhile_append_dropWhile (p := Char.isDigit) (l := cs))
    have := List.length_pos_iff.2 h'
    grind

theorem length_readWhole? {cs ds rest : List Char} (h : readWhole? cs = some (ds, rest)) :
    rest.length < cs.length := by
  unfold readWhole? at h
  split at h
  · simp at h
  · exact length_readDigits? h

theorem length_readFraction? {cs ds rest : List Char} (h : readFraction? cs = some (ds, rest)) :
    rest.length ≤ cs.length := by
  unfold readFraction? at h
  split at h
  · have := length_readDigits? h
    grind
  · grind

theorem length_readExponent? {cs rest : List Char} {e : Option Int}
    (h : readExponent? cs = some (e, rest)) : rest.length ≤ cs.length := by
  unfold readExponent? at h
  split at h
  · next c cs =>
    split at h
    · obtain ⟨⟨ds, rest'⟩, h, heq⟩ := Option.map_eq_some_iff.1 h
      have h₁ : rest'.length < (readExponentSign cs).2.length := length_readDigits? h
      have h₂ := length_readExponentSign cs
      obtain ⟨-, rfl⟩ := Prod.mk.inj heq
      simp; omega
    · grind
  · grind

theorem length_read? {cs rest : List Char} {d : Decimal} (h : read? cs = some (d, rest)) :
    rest.length < cs.length := by
  have h₁ := length_readSign cs
  obtain ⟨⟨whole, cs₁⟩, hw, h⟩ := Option.bind_eq_some_iff.1 h
  obtain ⟨⟨fraction, cs₂⟩, hf, h⟩ := Option.bind_eq_some_iff.1 h
  obtain ⟨⟨e, cs₃⟩, he, heq⟩ := Option.map_eq_some_iff.1 h
  have h₂ : cs₁.length < (readSign cs).2.length := length_readWhole? hw
  have h₃ := length_readFraction? hf
  have h₄ := length_readExponent? he
  obtain ⟨-, rfl⟩ := Prod.mk.inj heq
  omega

end Decimal
end Armature
