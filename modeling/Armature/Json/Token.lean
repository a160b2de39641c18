import Armature.Json.Basic

/-!
The tokens of a JSON text.

`Token.scan` splits a text into tokens. Strings are read here in full: an escape for one half of a
surrogate pair is joined with the escape for the other half that follows it.
-/

namespace Armature.Json

/-- The smallest parts of a JSON text that mean something. -/
inductive Token where
  | openArray
  | closeArray
  | openObject
  | closeObject
  | comma
  | colon
  | null
  | bool (b : Bool)
  | number (d : Decimal)
  | string (s : Option String)
deriving DecidableEq

namespace Token

/-! ### Strings -/

/-- What a string is written of: characters, and escapes for the halves of surrogate pairs. -/
inductive Unit16 where
  | char (c : Char)
  /-- The first half of a pair, by the ten bits that it carries. -/
  | high (bits : Nat)
  /-- The second half of a pair, by the ten bits that it carries. -/
  | low (bits : Nat)

/-- The value of a hexadecimal digit. -/
def hexDigit? (c : Char) : Option Nat :=
  if '0' ≤ c ∧ c ≤ '9' then some (c.toNat - '0'.toNat)
  else if 'a' ≤ c ∧ c ≤ 'f' then some (c.toNat - 'a'.toNat + 10)
  else if 'A' ≤ c ∧ c ≤ 'F' then some (c.toNat - 'A'.toNat + 10)
  else none

/-- What four hexadecimal digits escape. -/
def unitOfHex? (a b c d : Char) : Option Unit16 := do
  let n := ((← hexDigit? a) * 16 + (← hexDigit? b)) * 256 + ((← hexDigit? c) * 16 + (← hexDigit? d))
  if 0xD800 ≤ n ∧ n < 0xDC00 then return .high (n - 0xD800)
  else if 0xDC00 ≤ n ∧ n < 0xE000 then return .low (n - 0xDC00)
  else return .char (Char.ofNat n)

/-- The character that a letter behind a backslash escapes. -/
def escaped? : Char → Option Char
  | '"' => some '"'
  | '\\' => some '\\'
  | '/' => some '/'
  | 'b' => some '\x08'
  | 'f' => some '\x0c'
  | 'n' => some '\n'
  | 'r' => some '\r'
  | 't' => some '\t'
  | _ => none

/-- Puts a unit in front of the units that were taken off a text. -/
def consUnit (unit : Unit16) (taken : Option (List Unit16 × List Char)) :
    Option (List Unit16 × List Char) :=
  taken.map fun (units, rest) => (unit :: units, rest)

/-- Takes the rest of a string off the front of a text, up to its closing quote. Control characters have to
    be escaped. -/
def readUnits? : List Char → Option (List Unit16 × List Char)
  | '"' :: cs => some ([], cs)
  | '\\' :: 'u' :: a :: b :: c :: d :: cs =>
    (unitOfHex? a b c d).bind fun unit => consUnit unit (readUnits? cs)
  | '\\' :: e :: cs => (escaped? e).bind fun c => consUnit (.char c) (readUnits? cs)
  | c :: cs => if c < ' ' ∨ c = '\\' then none else consUnit (.char c) (readUnits? cs)
  | [] => none

theorem eq_some_of_consUnit {unit : Unit16} {taken units rest}
    (h : consUnit unit taken = some (units, rest)) : ∃ units', taken = some (units', rest) := by
  obtain ⟨⟨units', rest'⟩, h, heq⟩ := Option.map_eq_some_iff.1 h
  grind

/-- Reading a string uses up a part of the text. -/
theorem length_readUnits? {cs rest : List Char} {units : List Unit16}
    (h : readUnits? cs = some (units, rest)) : rest.length < cs.length := by
  fun_induction readUnits? cs generalizing units rest with
  | case1 cs => grind
  | case2 a b c d cs ih =>
    obtain ⟨unit, -, h⟩ := Option.bind_eq_some_iff.1 h
    obtain ⟨units', h⟩ := eq_some_of_consUnit h
    have := ih h
    simp; omega
  | case3 e cs _ ih =>
    obtain ⟨unit, -, h⟩ := Option.bind_eq_some_iff.1 h
    obtain ⟨units', h⟩ := eq_some_of_consUnit h
    have := ih h
    simp; omega
  | case4 => simp at h
  | case5 c cs _ _ _ _ ih =>
    obtain ⟨units', h⟩ := eq_some_of_consUnit h
    have := ih h
    simp; omega
  | case6 => simp at h

/-- The characters that units stand for, if each half of a pair has its other half beside it. -/
def joinUnits? : List Unit16 → Option (List Char)
  | [] => some []
  | .char c :: units => (joinUnits? units).map (c :: ·)
  | .high h :: .low l :: units =>
    (joinUnits? units).map (Char.ofNat (0x10000 + h * 0x400 + l) :: ·)
  | .high _ :: _ | .low _ :: _ => none

/-! ### Tokens -/

/-- The characters that may stand between tokens. -/
def isBlank (c : Char) : Bool := c = ' ' || c = '\n' || c = '\r' || c = '\t'

/-- The token that is one character. -/
def ofPunctuation? : Char → Option Token
  | '[' => some .openArray
  | ']' => some .closeArray
  | '{' => some .openObject
  | '}' => some .closeObject
  | ',' => some .comma
  | ':' => some .colon
  | _ => none

/-- Takes one token off the front of a text that does not start with a blank. -/
def read? : List Char → Option (Token × List Char)
  | '"' :: cs =>
    (readUnits? cs).map fun (units, rest) => (.string ((joinUnits? units).map String.ofList), rest)
  | 'n' :: 'u' :: 'l' :: 'l' :: cs => some (.null, cs)
  | 't' :: 'r' :: 'u' :: 'e' :: cs => some (.bool true, cs)
  | 'f' :: 'a' :: 'l' :: 's' :: 'e' :: cs => some (.bool false, cs)
  | c :: cs =>
    match ofPunctuation? c with
    | some token => some (token, cs)
    | none => (Decimal.read? (c :: cs)).map fun (d, rest) => (.number d, rest)
  | [] => none

/-- Reading a token uses up a part of the text. -/
theorem length_read? {cs rest : List Char} {token : Token} (h : read? cs = some (token, rest)) :
    rest.length < cs.length := by
  unfold read? at h
  split at h
  · obtain ⟨⟨units, rest'⟩, h, heq⟩ := Option.map_eq_some_iff.1 h
    have := length_readUnits? h
    grind
  · grind
  · grind
  · grind
  · split at h
    · grind
    · obtain ⟨⟨d, rest'⟩, h, heq⟩ := Option.map_eq_some_iff.1 h
      have := Decimal.length_read? h
      grind
  · simp at h

/-- The tokens of a text, if it consists of tokens and blanks. -/
def scan : List Char → Option (List Token)
  | [] => some []
  | c :: cs =>
    if isBlank c then scan cs
    else
      match _h : read? (c :: cs) with
      | none => none
      | some (token, rest) => (scan rest).map (token :: ·)
termination_by cs => cs.length
decreasing_by
  · simp
  · exact length_read? _h

end Token
end Armature.Json
