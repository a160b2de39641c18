import Armature.Arena
import Armature.Graph.Operator
import Armature.Playback
import Armature.Variable.Table

/-!
The nodes of an animation graph.

The kind of a node fixes its inputs and the type of its result. A node remembers the result of its last
computation, and a clip sampler its playback position.
-/

namespace Armature

/-- What a node computes. -/
inductive NodeKind where
  /-- The pose of a clip, played at a speed, looping or not. -/
  | clipSampler
  /-- The blend of two poses by a weight. -/
  | blend
  /-- A pose with an additive on top of it, by a weight. -/
  | additiveBlend
  /-- The additive that leads from a reference pose to a source pose. -/
  | calculateAdditive
  /-- The first of two poses if a condition is false, the second if it is true. -/
  | selectPose
  /-- An operator with a truth value as its result. -/
  | bool (op : BoolOp)
  /-- An operator with a number as its result. -/
  | float (op : FloatOp)
deriving DecidableEq

/-- The types of the results of nodes. -/
inductive ResultType where
  | pose
  | bool
  | float
deriving DecidableEq

/-- What an input expects. A clip comes from a variable alone, and a pose from a node alone. -/
inductive InputType where
  | clip
  | pose
  | bool
  | float
deriving DecidableEq

namespace NodeKind

/-- What the inputs expect, in order. -/
def inputs : NodeKind → List InputType
  | clipSampler => [.clip, .float, .bool]
  | blend | additiveBlend => [.pose, .pose, .float]
  | calculateAdditive => [.pose, .pose]
  | selectPose => [.pose, .pose, .bool]
  | bool (.logic .not) => [.bool]
  | bool (.logic _) => [.bool, .bool]
  | bool (.compare _) => [.float, .float]
  | float op => if op.isUnary then [.float] else [.float, .float]

def arity (kind : NodeKind) : Nat := kind.inputs.length

/-- The type of the result. -/
def resultType : NodeKind → ResultType
  | bool _ => .bool
  | float _ => .float
  | _ => .pose

end NodeKind

/-- A key of a node. -/
abbrev NodeKey := Key .node

/-- Where an input takes its value from. -/
inductive Slot where
  | unbound
  | node (key : NodeKey)
  | variable (key : VariableKey)
deriving DecidableEq, Inhabited

namespace Slot

def nodeKey? : Slot → Option NodeKey
  | .node key => some key
  | _ => none

def variableKey? : Slot → Option VariableKey
  | .variable key => some key
  | _ => none

def isBound (slot : Slot) : Bool := slot ≠ unbound

end Slot

/-- What a node remembers from one frame to the next. -/
inductive NodeState (α : Type) where
  | sampler (playback : Playback α) (pose : Pose α)
  | pose (pose : Pose α)
  | bool (b : Bool)
  | float (x : α)

/-- A node with its inputs, what it remembers, and when it was computed. -/
structure Node (α : Type) where
  kind : NodeKind
  inputs : List Slot
  state : NodeState α
  /-- The frame of the last computation; zero before the first. -/
  lastFrame : Nat
  /-- How often the node has been computed. -/
  evaluations : Nat

namespace Node

variable {α : Type}

/-- A node of a kind, with nothing bound and nothing computed. -/
def ofKind [Scalar α] (kind : NodeKind) : Node α where
  kind
  inputs := List.replicate kind.arity .unbound
  state :=
    match kind with
    | .clipSampler => .sampler .idle ∅
    | .bool _ => .bool false
    | .float _ => .float 0
    | _ => .pose ∅
  lastFrame := 0
  evaluations := 0

/-- What an input is bound to. Inputs that the node does not have are unbound. -/
def input (node : Node α) (index : Nat) : Slot := node.inputs[index]?.getD .unbound

/-- The pose of the last computation; empty unless the node computes poses. -/
def pose (node : Node α) : Pose α :=
  match node.state with
  | .sampler _ pose | .pose pose => pose
  | _ => ∅

/-- The truth value of the last computation; false unless the node computes truth values. -/
def boolResult (node : Node α) : Bool :=
  match node.state with
  | .bool b => b
  | _ => false

/-- The number of the last computation; zero unless the node computes numbers. -/
def floatResult [Scalar α] (node : Node α) : α :=
  match node.state with
  | .float x => x
  | _ => 0

/-- The playback of a clip sampler. -/
def playback? (node : Node α) : Option (Playback α) :=
  match node.state with
  | .sampler playback _ => some playback
  | _ => none

/-- Moves the playback position of a clip sampler. -/
def setTime (node : Node α) (time : α) : Node α :=
  match node.state with
  | .sampler playback pose => { node with state := .sampler { playback with time } pose }
  | _ => node

def bind (node : Node α) (index : Nat) (slot : Slot) : Node α :=
  { node with inputs := node.inputs.set index slot }

@[simp] theorem length_inputs_ofKind [Scalar α] (kind : NodeKind) :
    (ofKind kind : Node α).inputs.length = kind.arity := by
  simp [ofKind]

@[simp] theorem length_inputs_bind (node : Node α) (index : Nat) (slot : Slot) :
    (node.bind index slot).inputs.length = node.inputs.length := by
  simp [bind]

theorem input_bind (node : Node α) (index other : Nat) (slot : Slot) (h : index < node.inputs.length) :
    (node.bind index slot).input other = if other = index then slot else node.input other := by
  unfold input bind
  grind

end Node

abbrev Nodes (α : Type) := Arena .node (Node α)

end Armature
