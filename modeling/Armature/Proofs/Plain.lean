import Armature.Graph.Evaluate
import Armature.Proofs.Binding

/-!
# The plain semantics of a frame

What a node means in a frame, by recursion along the inputs: no cache, no stamp, and no node is changed. The
recursion ends because bindings are acyclic (`Frame.meaning`, with its equation `Frame.meaning_eq`).
-/

namespace Armature

variable {α : Type}

/-- What a node delivers to the inputs that are bound to it. -/
inductive Result (α : Type) where
  | pose (pose : Pose α)
  | bool (b : Bool)
  | float (x : α)

namespace Result

def pose? : Result α → Option (Pose α)
  | .pose p => some p
  | _ => none

def bool? : Result α → Option Bool
  | bool b => some b
  | _ => none

def float? : Result α → Option α
  | float x => some x
  | _ => none

def type : Result α → ResultType
  | pose _ => .pose
  | bool _ => .bool
  | float _ => .float

end Result

/-- The result that a node holds from its last computation. -/
def Node.result [Scalar α] (node : Node α) : Result α :=
  match node.kind.resultType with
  | .pose => .pose node.pose
  | .bool => .bool node.boolResult
  | .float => .float node.floatResult

theorem Node.pose_of_result [Scalar α] {node : Node α} {pose : Pose α} (h : node.result = .pose pose) :
    node.pose = pose := by
  unfold result at h
  split at h
  · exact Result.pose.inj h
  · cases h
  · cases h

namespace Frame

/-- The results of nodes, as far as they have any. -/
abbrev Results (α : Type) := NodeKey → Option (Result α)

/-- The pose that an input reads; none unless it is bound to a node with a pose. -/
def poseInput (results : Results α) : Slot → Option (Pose α)
  | .node child => (results child).bind (·.pose?)
  | _ => none

/-- The truth value that an input reads. -/
def boolInput (frame : Frame α) (results : Results α) (slot : Slot) (default : Bool) : Bool :=
  match slot with
  | .node child => ((results child).bind (·.bool?)).getD default
  | .variable key => ((frame.table.get? key).bind (·.value.asBool?)).getD default
  | .unbound => default

/-- The number that an input reads. -/
def floatInput (frame : Frame α) (results : Results α) (slot : Slot) (default : α) : α :=
  match slot with
  | .node child => ((results child).bind (·.float?)).getD default
  | .variable key => ((frame.table.get? key).bind (·.value.asFloat?)).getD default
  | .unbound => default

/-- The clip that an input reads; none unless it is bound to a variable with a clip. -/
def clipInput (frame : Frame α) : Slot → Option (Asset (Clip α))
  | .variable key => (frame.table.get? key).bind (·.value.asClip?)
  | _ => none

/-- What two poses are combined to; the empty pose if one of them is missing. -/
def both (f : Pose α → Pose α → Pose α) : Option (Pose α) → Option (Pose α) → Pose α
  | some a, some b => f a b
  | _, _ => ∅

/-- What an input is bound to is among what the inputs of the node are bound to. -/
theorem mem_inputs_of_ne_unbound {node : Node α} {index : Nat} (h : node.input index ≠ .unbound) :
    node.input index ∈ node.inputs := by
  unfold Node.input at h ⊢
  cases hslot : node.inputs[index]? with
  | none =>
    rw [hslot] at h
    exact absurd rfl h
  | some slot => exact List.mem_of_getElem? hslot

theorem mem_inputs_of_input {node : Node α} {index : Nat} {child : NodeKey}
    (h : node.input index = .node child) : Slot.node child ∈ node.inputs :=
  h ▸ mem_inputs_of_ne_unbound (by simp [h])

/-! An input that is bound to no node reads the variable that it is bound to. -/

theorem boolInput_of_nodeKey? (frame : Frame α) {results : Results α} {slot : Slot} (h : slot.nodeKey? = none)
    (default : Bool) :
    frame.boolInput results slot default = ((frame.bound? slot).bind (·.value.asBool?)).getD default := by
  cases slot with
  | node child => cases h
  | _ => rfl

theorem floatInput_of_nodeKey? (frame : Frame α) {results : Results α} {slot : Slot} (h : slot.nodeKey? = none)
    (default : α) :
    frame.floatInput results slot default = ((frame.bound? slot).bind (·.value.asFloat?)).getD default := by
  cases slot with
  | node child => cases h
  | _ => rfl

theorem clipInput_eq (frame : Frame α) (slot : Slot) :
    frame.clipInput slot = (frame.bound? slot).bind (·.value.asClip?) := by
  cases slot <;> rfl

theorem readClip_eq (frame : Frame α) (slot : Slot) : frame.readClip slot = frame.clipInput slot :=
  (frame.clipInput_eq slot).symm

/-! What an input reads depends on the result of the node alone that it is bound to. -/

theorem poseInput_congr {results other : Results α} {node : Node α}
    (h : ∀ child, Slot.node child ∈ node.inputs → results child = other child)
    (index : Nat) : poseInput results (node.input index) = poseInput other (node.input index) := by
  cases hslot : node.input index with
  | node child => rw [poseInput, poseInput, h child (mem_inputs_of_input hslot)]
  | _ => rfl

theorem boolInput_congr (frame : Frame α) {results other : Results α} {node : Node α}
    (h : ∀ child, Slot.node child ∈ node.inputs → results child = other child) (index : Nat) (default : Bool) :
    frame.boolInput results (node.input index) default =
      frame.boolInput other (node.input index) default := by
  cases hslot : node.input index with
  | node child => rw [boolInput, boolInput, h child (mem_inputs_of_input hslot)]
  | _ => rfl

theorem floatInput_congr (frame : Frame α) {results other : Results α} {node : Node α}
    (h : ∀ child, Slot.node child ∈ node.inputs → results child = other child) (index : Nat) (default : α) :
    frame.floatInput results (node.input index) default =
      frame.floatInput other (node.input index) default := by
  cases hslot : node.input index with
  | node child => rw [floatInput, floatInput, h child (mem_inputs_of_input hslot)]
  | _ => rfl

variable [Scalar α]

/-- Where the playback of a clip goes on: at the position, but at the start if another clip was played last or
    the position is not a valid time of the clip. -/
def startTime (playback : Playback α) (clip : Asset (Clip α)) : α :=
  match playback.clip with
  | some last => if last.id = clip.id ∧ clip.value.isValidTime playback.time then playback.time else 0
  | none => 0

def sampledPose (frame : Frame α) (node : Node α) : Pose α :=
  match frame.clipInput (node.input 0) with
  | some clip => Pose.sample clip.value frame.tree (startTime (node.playback?.getD .idle) clip)
  | none => ∅

/-- The playback of a clip sampler after a frame: its clip, and the position advanced once, at the rate of the clip if
    it is positive, and else at that of the settings. -/
def nextPlayback (frame : Frame α) (results : Results α) (node : Node α) : Playback α :=
  match frame.clipInput (node.input 0) with
  | some clip =>
    let rate :=
      if 0 < clip.value.ticksPerSecond then clip.value.ticksPerSecond else frame.settings.defaultTicksPerSecond
    let speed := frame.floatInput results (node.input 1) 1
    let looping := frame.boolInput results (node.input 2) true
    let start := startTime (node.playback?.getD .idle) clip
    ⟨clip.value.stepTime start (rate * frame.timestep * speed) looping, some clip⟩
  | none => ⟨0, none⟩

/-- The weight of a mix: the number that an input reads inside `[0, 1]`, and the nearer end for a number outside. -/
def weightInput (frame : Frame α) (results : Results α) (slot : Slot) : α :=
  let weight := frame.floatInput results slot 0
  if weight < 0 then 0 else if 1 < weight then 1 else weight

/-- The operation of a node, applied to what its inputs read. -/
def operation (frame : Frame α) (results : Results α) (node : Node α) : Result α :=
  let pose (index : Nat) := poseInput results (node.input index)
  let bool (index : Nat) := frame.boolInput results (node.input index) false
  let float (index : Nat) := frame.floatInput results (node.input index) 0
  let weight (index : Nat) := frame.weightInput results (node.input index)
  match node.kind with
  | .clipSampler => .pose (frame.sampledPose node)
  | .blend => .pose (both (·.blend · frame.tree (weight 2)) (pose 0) (pose 1))
  | .additiveBlend => .pose (both (·.layer · frame.tree (weight 2)) (pose 0) (pose 1))
  | .calculateAdditive => .pose (both (·.difference · frame.tree) (pose 0) (pose 1))
  | .selectPose => .pose ((pose (if bool 2 then 1 else 0)).getD ∅)
  | .bool (.logic op) => .bool (op.apply (bool 0) (bool 1))
  | .bool (.compare op) => .bool (op.apply (float 0) (float 1))
  | .float op => .float (op.apply (float 0) (float 1))

/-- An operation depends on the results of the nodes alone that its inputs are bound to. -/
theorem operation_congr (frame : Frame α) {results other : Results α} {node : Node α}
    (h : ∀ child, Slot.node child ∈ node.inputs → results child = other child) :
    frame.operation results node = frame.operation other node := by
  simp only [operation, weightInput, poseInput_congr h, boolInput_congr frame h, floatInput_congr frame h]

/-- What a node means in a frame: its operation, applied to what the nodes mean that its inputs are bound to. A key
    without a node means nothing. -/
def meaning (frame : Frame α) (nodes : Nodes α) (h : nodes.Acyclic) (key : NodeKey) : Option (Result α) :=
  match _hnode : nodes.get? key with
  | some node =>
    some (frame.operation (fun child =>
      if _hchild : Slot.node child ∈ node.inputs then frame.meaning nodes h child else none) node)
  | none => none
termination_by h.wellFounded.wrap key
decreasing_by exact ⟨node, _hnode, _hchild⟩

/-- What a node means is its operation, applied to what the nodes mean that its inputs are bound to. -/
theorem meaning_eq (frame : Frame α) (nodes : Nodes α) (h : nodes.Acyclic) (key : NodeKey) :
    frame.meaning nodes h key = (nodes.get? key).map (frame.operation (frame.meaning nodes h)) := by
  rw [meaning]
  split
  · next node hnode =>
    rw [hnode, Option.map_some]
    exact congrArg some (frame.operation_congr fun child hchild => by rw [dif_pos hchild])
  · next hnode => rw [hnode, Option.map_none]

/-- An input that is bound to a clip sampler reads the clip where it goes on. -/
theorem poseInput_meaning_sampler (frame : Frame α) {nodes : Nodes α} (h : nodes.Acyclic) {child : NodeKey}
    {node : Node α} (hnode : nodes.get? child = some node) (hkind : node.kind = .clipSampler) :
    poseInput (frame.meaning nodes h) (.node child) = some (frame.sampledPose node) := by
  have hmeaning : frame.meaning nodes h child = some (.pose (frame.sampledPose node)) := by
    rw [meaning_eq, hnode, Option.map_some, operation, hkind]
  rw [poseInput, hmeaning]
  rfl

@[simp] theorem type_operation (frame : Frame α) (results : Results α) (node : Node α) :
    (frame.operation results node).type = node.kind.resultType := by
  unfold operation
  cases node.kind with
  | bool op => cases op <;> rfl
  | _ => rfl

end Frame
end Armature
