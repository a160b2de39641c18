import Armature.Scalar

/-!
The operators that nodes apply to truth values and numbers.
-/

namespace Armature

/-- Operators on truth values. -/
inductive LogicOp where
  | and
  | or
  | xor
  | not
deriving DecidableEq

/-- Comparisons of numbers. -/
inductive Comparison where
  | less
  | lessEqual
  | greater
  | greaterEqual
  | equal
  | notEqual
deriving DecidableEq

/-- Operators with a truth value as their result. -/
inductive BoolOp where
  | logic (op : LogicOp)
  | compare (op : Comparison)
deriving DecidableEq

/-- Operators with a number as their result. -/
inductive FloatOp where
  | add
  | sub
  | mul
  | div
  | sin
  | cos
  | toRadians
  | toDegrees
deriving DecidableEq

def BoolOp.name : BoolOp → String
  | .logic .and => "And"
  | .logic .or => "Or"
  | .logic .xor => "Xor"
  | .logic .not => "Not"
  | .compare .less => "Less"
  | .compare .lessEqual => "LessEqual"
  | .compare .greater => "Greater"
  | .compare .greaterEqual => "GreaterEqual"
  | .compare .equal => "Equal"
  | .compare .notEqual => "NotEqual"

def BoolOp.ofName? : String → Option BoolOp
  | "And" => some (.logic .and)
  | "Or" => some (.logic .or)
  | "Xor" => some (.logic .xor)
  | "Not" => some (.logic .not)
  | "Less" => some (.compare .less)
  | "LessEqual" => some (.compare .lessEqual)
  | "Greater" => some (.compare .greater)
  | "GreaterEqual" => some (.compare .greaterEqual)
  | "Equal" => some (.compare .equal)
  | "NotEqual" => some (.compare .notEqual)
  | _ => none

def FloatOp.name : FloatOp → String
  | .add => "Add"
  | .sub => "Sub"
  | .mul => "Mul"
  | .div => "Div"
  | .sin => "Sin"
  | .cos => "Cos"
  | .toRadians => "ToRadians"
  | .toDegrees => "ToDegrees"

def FloatOp.ofName? : String → Option FloatOp
  | "Add" => some .add
  | "Sub" => some .sub
  | "Mul" => some .mul
  | "Div" => some .div
  | "Sin" => some .sin
  | "Cos" => some .cos
  | "ToRadians" => some .toRadians
  | "ToDegrees" => some .toDegrees
  | _ => none

@[simp] theorem BoolOp.ofName?_name (op : BoolOp) : BoolOp.ofName? op.name = some op := by
  rcases op with op | op <;> cases op <;> rfl

@[simp] theorem FloatOp.ofName?_name (op : FloatOp) : FloatOp.ofName? op.name = some op := by
  cases op <;> rfl

/-- The result of an operator on truth values. Negation ignores its second operand. -/
def LogicOp.apply : LogicOp → Bool → Bool → Bool
  | and, a, b => a && b
  | or, a, b => a || b
  | xor, a, b => a ^^ b
  | not, a, _ => !a

/-- The result of a comparison. With an operand that is not a number, only `notEqual` holds. -/
def Comparison.apply {α : Type} [Scalar α] : Comparison → α → α → Bool
  | less, a, b => a < b
  | lessEqual, a, b => a ≤ b
  | greater, a, b => b < a
  | greaterEqual, a, b => b ≤ a
  | equal, a, b => a == b
  | notEqual, a, b => a != b

namespace BoolOp

/-- Whether the operands are numbers. -/
def comparesFloats : BoolOp → Bool
  | logic _ => false
  | compare _ => true

/-- The result for two truth values. A comparison does not hold between them. -/
def applyToBools : BoolOp → Bool → Bool → Bool
  | logic op, a, b => op.apply a b
  | compare _, _, _ => false

/-- The result for two numbers. An operator on truth values does not hold between them. -/
def applyToFloats {α : Type} [Scalar α] : BoolOp → α → α → Bool
  | logic _, _, _ => false
  | compare op, a, b => op.apply a b

end BoolOp

namespace FloatOp

/-- Whether there is one operand only. -/
def isUnary : FloatOp → Bool
  | add | sub | mul | div => false
  | sin | cos | toRadians | toDegrees => true

/-- The result of an operator. A unary one ignores its second operand. -/
def apply {α : Type} [Scalar α] : FloatOp → α → α → α
  | add, a, b => a + b
  | sub, a, b => a - b
  | mul, a, b => a * b
  | div, a, b => a / b
  | sin, a, _ => Scalar.sin a
  | cos, a, _ => Scalar.cos a
  | toRadians, a, _ => Scalar.toRadians a
  | toDegrees, a, _ => Scalar.toDegrees a

end FloatOp
end Armature
