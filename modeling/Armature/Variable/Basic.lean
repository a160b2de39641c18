import Armature.Clip
import Armature.Error

/-!
Graph variables: typed values that drive the inputs of nodes.
-/

namespace Armature

/-- The value of a variable. -/
inductive Value (α : Type) where
  | bool (b : Bool)
  | float (x : α)
  /-- A clip; none until one is assigned. -/
  | animation (clip : Option (Asset (Clip α)))
deriving Inhabited

namespace Value

variable {α : Type}

def type : Value α → VariableType
  | bool _ => .bool
  | float _ => .float
  | animation _ => .animation

def asBool? : Value α → Option Bool
  | bool b => some b
  | _ => none

def asFloat? : Value α → Option α
  | float x => some x
  | _ => none

def asClip? : Value α → Option (Asset (Clip α))
  | animation clip => clip
  | _ => none

/-- Whether there is anything; only an animation without a clip is nothing. -/
def hasValue : Value α → Bool
  | animation none => false
  | _ => true

/-- Equality: numbers as numbers, and clips by identity. -/
instance [BEq α] : BEq (Value α) where
  beq
    | bool a, bool b => a == b
    | float a, float b => a == b
    | animation a, animation b => Asset.same a b
    | _, _ => false

end Value

/-- A variable. Named variables are declared, and may drive many inputs; an unnamed one holds the value of a
    single input. -/
structure Variable (α : Type) where
  name : Option String
  value : Value α
deriving Inhabited

namespace Variable

variable {α : Type}

instance [BEq α] : BEq (Variable α) where
  beq a b := a.name == b.name && a.value == b.value

/-- Assigns a value of the same type. -/
def assign (v : Variable α) (value : Value α) : Except Error (Variable α) :=
  if v.value.type = value.type then .ok { v with value }
  else .error (.typeMismatch (v.name.getD "") v.value.type value.type)

/-- An assignment keeps the name and the type, and stores the value. -/
theorem eq_of_assign {v w : Variable α} {value : Value α} (h : v.assign value = .ok w) :
    w = { v with value } ∧ value.type = v.value.type := by
  unfold assign at h
  grind

end Variable
end Armature
