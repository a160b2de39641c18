import Armature.Number.Shortest

/-!
JSON values.
-/

namespace Armature

/-- A JSON value. Strings and keys are `none` if their text escapes half of a surrogate pair: such a text is
    well-formed JSON, but it stands for no string. The members of an object keep their order, and a key may
    occur more than once. -/
inductive Json where
  | null
  | bool (b : Bool)
  | number (d : Decimal)
  | string (s : Option String)
  | array (items : List Json)
  | object (members : List (Option String × Json))
deriving Inhabited

namespace Json

def ofNat (n : Nat) : Json := .number (.ofNat n)

def ofString (s : String) : Json := .string (some s)

/-- An object with the given members. -/
def ofMembers (members : List (String × Json)) : Json :=
  .object (members.map fun (key, value) => (some key, value))

/-- Floats from a millionth up to ten trillion are written with all their digits. -/
def floatLayout : DecimalLayout := ⟨-6, 12⟩

/-- The value of a float: its shortest decimal. What is not finite has no numeral, and becomes null. -/
def ofFloat (x : Binary32) : Json :=
  if x.isFinite then .number (x.toDecimal floatLayout) else .null

end Json
end Armature
