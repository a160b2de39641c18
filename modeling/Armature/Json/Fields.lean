import Armature.Json.Basic
import Armature.Number.Decimal.Value

/-!
Typed reading of JSON values.

A record is written as an object, or as an array of its fields in order. A choice is written as the name of
the case, or as an object with one member: the name of the case with what belongs to it. Reading has no
answer for a value that writes nothing of the type.
-/

namespace Armature

/-- A way to read numerals as floats. -/
abbrev FloatReader := Decimal → Option Binary32

namespace Json

def asBool? : Json → Option Bool
  | .bool b => some b
  | _ => none

def asString? : Json → Option String
  | .string s => s
  | _ => none

/-- The natural number, if it is below two to the power of 64. -/
def asWord? : Json → Option Nat
  | .number d => d.toNat? UInt64.size
  | _ => none

/-- The float that a number is read as. -/
def asFloatBy? (read : FloatReader) : Json → Option Binary32
  | .number d => read d
  | _ => none

/-- The float that a number stands for, if it is in range. -/
def asFloat? : Json → Option Binary32 := asFloatBy? Decimal.toBinary32?

/-- The items of an array, each read by the same reader. -/
def asList? {β : Type} (read? : Json → Option β) : Json → Option (List β)
  | .array items => items.mapM read?
  | _ => none

/-- What a reader reads, or nothing for null. -/
def orNull? {β : Type} (read? : Json → Option β) : Json → Option (Option β)
  | .null => some none
  | v => (read? v).map some

/-- The member of a key, if it is there; there is no answer if it is there more than once. -/
def member? (members : List (String × Json)) (key : String) : Option (Option Json) :=
  match members.filter (·.1 == key) with
  | [] => some none
  | [(_, v)] => some (some v)
  | _ => none

/-- The fields of a record, in the order of their names. In an object every key is a string, and members
    with other keys are passed over; in an array, fields may be missing at the end. -/
def fields? (names : List String) : Json → Option (List (Option Json))
  | .object members => do
    let members ← members.mapM fun (key, v) => key.map (·, v)
    names.mapM (member? members)
  | .array items =>
    if items.length ≤ names.length then
      some (items.map some ++ List.replicate (names.length - items.length) none)
    else none
  | _ => none

/-- The case of a choice, and what belongs to it. -/
def case? : Json → Option (String × Option Json)
  | .string name => name.map (·, none)
  | .object [(name, v)] => name.map (·, some v)
  | _ => none

/-- A field that must be there. -/
def required {β : Type} (read? : Json → Option β) (field : Option Json) : Option β :=
  field.bind read?

/-- A field that has a default if it is not there. -/
def withDefault {β : Type} (read? : Json → Option β) (default : β) : Option Json → Option β
  | none => some default
  | some v => read? v

end Json
end Armature
