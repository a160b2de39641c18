import Armature.Graph.Basic

/-!
Evaluation of graphs, one frame at a time.

Nodes pull their inputs. A node is computed at most once in a frame: its result is kept with the number of
the frame, and whoever needs it again in that frame finds it there. An input that is unbound, or bound to
something of another type than it expects, has a default.
-/

namespace Armature

/-- What the computations of one frame read. -/
structure Frame (α : Type) where
  tree : BoneTree α
  table : VariableTable α
  settings : Settings α
  /-- The number of the frame; the first frame of a graph has number one. -/
  number : Nat
  /-- The seconds that pass in this frame. -/
  timestep : α

/-- Computations that may bring nodes up to date. A computation has no result if it would not end, or uses a
    node that is not there. -/
abbrev Evaluation (α : Type) := StateT (Nodes α) Option

namespace Frame

variable {α : Type} [Scalar α]

/-- The node of a key, which must be there. -/
def fetch (key : NodeKey) : Evaluation α (Node α) := do
  (← get).get? key

/-- Changes the node of a key, which must be there. -/
def update (key : NodeKey) (f : Node α → Node α) : Evaluation α Unit := do
  let _ ← fetch key
  modify (·.modify key f)

/-- The variable that a slot is bound to. -/
def bound? (frame : Frame α) (slot : Slot) : Option (Variable α) :=
  slot.variableKey?.bind frame.table.get?

/-- The clip of an input. -/
def readClip (frame : Frame α) (slot : Slot) : Option (Asset (Clip α)) :=
  (frame.bound? slot).bind (·.value.asClip?)

/-- What a clip sampler remembers after a frame in which it plays a clip: the pose at its position, and the
    position advanced. Without a clip the pose is empty and the position is the start. -/
def playClip (frame : Frame α) (playback : Playback α) (clip : Option (Asset (Clip α))) (speed : α)
    (looping : Bool) : NodeState α :=
  let playback := (playback.switch clip).settle
  let next :=
    if clip.isSome then playback.advance frame.settings frame.timestep speed looping
    else { playback with time := 0 }
  .sampler next (playback.pose frame.tree)

/-- What the poses of two nodes are combined to; the empty pose if one of the nodes is missing. -/
def combine (f : Pose α → Pose α → Pose α) (a b : Option NodeKey) : Evaluation α (Pose α) := do
  match a, b with
  | some a, some b => return f (← fetch a).pose (← fetch b).pose
  | _, _ => return ∅

/-! Nodes and their inputs. What an input or a node needs first is brought up to date by `visit`. -/

/-- The node that a slot is bound to, once it is up to date, if its result has the expected type. -/
def pull (visit : NodeKey → Evaluation α Unit) (expected : ResultType) (slot : Slot) :
    Evaluation α (Option NodeKey) := do
  match slot with
  | .node child =>
    match (← get).get? child with
    | some node =>
      if node.kind.resultType = expected then
        visit child
        return some child
      else return none
    | none => return none
  | _ => return none

def readBool (frame : Frame α) (visit : NodeKey → Evaluation α Unit) (slot : Slot) (default : Bool) :
    Evaluation α Bool := do
  match ← pull visit .bool slot with
  | some child => return (← fetch child).boolResult
  | none => return ((frame.bound? slot).bind (·.value.asBool?)).getD default

def readFloat (frame : Frame α) (visit : NodeKey → Evaluation α Unit) (slot : Slot) (default : α) :
    Evaluation α α := do
  match ← pull visit .float slot with
  | some child => return (← fetch child).floatResult
  | none => return ((frame.bound? slot).bind (·.value.asFloat?)).getD default

/-- What two poses are mixed to by a weight, which is kept in the unit interval. Both poses and the weight are
    brought up to date, whether the poses are there or not. -/
def mix (frame : Frame α) (visit : NodeKey → Evaluation α Unit) (node : Node α)
    (f : Pose α → Pose α → BoneTree α → α → Pose α) : Evaluation α (Pose α) := do
  let a ← pull visit .pose (node.input 0)
  let b ← pull visit .pose (node.input 1)
  let weight ← frame.readFloat visit (node.input 2) 0
  combine (f · · frame.tree (Scalar.clampUnit weight)) a b

/-- What a node remembers after it has been computed in a frame. -/
def compute (frame : Frame α) (visit : NodeKey → Evaluation α Unit) (key : NodeKey) (node : Node α) :
    Evaluation α (NodeState α) := do
  match node.kind with
  | .clipSampler =>
    let clip := frame.readClip (node.input 0)
    let speed ← frame.readFloat visit (node.input 1) 1
    let looping ← frame.readBool visit (node.input 2) true
    let node ← fetch key
    return frame.playClip (node.playback?.getD .idle) clip speed looping
  | .blend => return .pose (← frame.mix visit node Pose.blend)
  | .additiveBlend => return .pose (← frame.mix visit node Pose.layer)
  | .calculateAdditive =>
    let reference ← pull visit .pose (node.input 0)
    let source ← pull visit .pose (node.input 1)
    return .pose (← combine (·.difference · frame.tree) reference source)
  | .selectPose =>
    -- only the branch that is selected is brought up to date
    let condition ← frame.readBool visit (node.input 2) false
    match ← pull visit .pose (node.input (if condition then 1 else 0)) with
    | some child => return .pose (← fetch child).pose
    | none => return .pose ∅
  | .bool (.logic .not) =>
    let a ← frame.readBool visit (node.input 0) false
    return .bool (LogicOp.not.apply a false)
  | .bool (.logic op) =>
    let a ← frame.readBool visit (node.input 0) false
    let b ← frame.readBool visit (node.input 1) false
    return .bool (op.apply a b)
  | .bool (.compare op) =>
    let a ← frame.readFloat visit (node.input 0) 0
    let b ← frame.readFloat visit (node.input 1) 0
    return .bool (op.apply a b)
  | .float op =>
    let a ← frame.readFloat visit (node.input 0) 0
    if op.isUnary then return .float (op.apply a 0)
    else
      let b ← frame.readFloat visit (node.input 1) 0
      return .float (op.apply a b)

/-- Brings a node up to date, and with it the nodes that it needs. Nothing but the end of the bindings stops this:
    a node that is met on the way from itself, and so waits no more, would be computed for ever. -/
def visit (frame : Frame α) (waiting : List NodeKey) (key : NodeKey) : Evaluation α Unit := do
  match (← get).get? key with
  | none => return ()
  | some node =>
    if frame.number ≤ node.lastFrame then return ()
    else if _h : key ∈ waiting then
      let state ← frame.compute (frame.visit (waiting.erase key)) key node
      update key fun node =>
        { node with state, lastFrame := frame.number, evaluations := node.evaluations + 1 }
    else failure
termination_by waiting.length
decreasing_by
  have := List.length_erase_of_mem _h
  have := List.length_pos_of_mem _h
  omega

end Frame

namespace Graph

variable {α : Type} [Scalar α]

/-- The next frame of a graph. -/
def nextFrame (graph : Graph α) (timestep : α) : Frame α where
  tree := graph.skeleton.value.tree
  table := graph.table
  settings := graph.settings
  number := graph.frame + 1
  timestep

/-- Evaluates the output node in the next frame, and returns its pose; no pose without an output. The
    evaluation itself may have no result. -/
def evaluate? (graph : Graph α) (timestep : α) : Option (Option (Pose α) × Graph α) :=
  let frame := graph.nextFrame timestep
  match graph.output with
  | none => some (none, { graph with frame := frame.number })
  | some key => do
    let ((), nodes) ← (frame.visit graph.nodes.keys key).run graph.nodes
    return ((nodes.get? key).map (·.pose), { graph with nodes, frame := frame.number })

/-- The pose of the output node in the next frame, and the graph after it. If the evaluation has no result,
    nothing happens. -/
def evaluate (graph : Graph α) (timestep : α) : Option (Pose α) × Graph α :=
  (graph.evaluate? timestep).getD (none, graph)

/-- The palette of the next frame below a root parent, written over what a buffer holds; that of the bind pose
    without an output. -/
def updateWithRoot (graph : Graph α) (timestep : α) (rootParent : Mat4 α) (buffer : Palette α := #[]) :
    Palette α × Graph α :=
  let (pose, graph) := graph.evaluate timestep
  (graph.skeleton.value.finalizeInto buffer (pose.getD ∅) rootParent, graph)

/-- The palette of the next frame below the root transform of the settings. -/
def update (graph : Graph α) (timestep : α) (buffer : Palette α := #[]) : Palette α × Graph α :=
  graph.updateWithRoot timestep graph.settings.rootTransform buffer

end Graph
end Armature
