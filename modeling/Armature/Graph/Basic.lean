import Armature.Graph.DepthFirst
import Armature.Graph.Node
import Armature.Skeleton

/-!
Animation graphs: nodes that take their inputs from variables and from each other, and compute the pose
of a skeleton.
-/

namespace Armature

/-- A graph on a skeleton. -/
structure Graph (α : Type) where
  skeleton : Asset (Skeleton α)
  nodes : Nodes α
  /-- The node that computes the pose of the graph. -/
  output : Option NodeKey
  /-- The variables that inputs can be bound to. -/
  table : VariableTable α
  settings : Settings α
  /-- The number of frames that have been evaluated. -/
  frame : Nat

namespace Graph

variable {α : Type}

/-- The graph without nodes and variables. -/
def ofSkeleton (skeleton : Asset (Skeleton α)) (settings : Settings α) : Graph α :=
  { skeleton, nodes := .empty, output := none, table := .empty, settings, frame := 0 }

def node? (graph : Graph α) (key : NodeKey) : Option (Node α) := graph.nodes.get? key

def nodeCount (graph : Graph α) : Nat := graph.nodes.size

def findVariable? (graph : Graph α) (name : String) : Option (Variable α) := graph.table.find? name

/-- The pose that the output node computed last. -/
def outputPose (graph : Graph α) : Option (Pose α) :=
  (graph.output.bind graph.node?).map (·.pose)

/-- The nodes that the inputs of a node are bound to, in order. -/
def children (graph : Graph α) (key : NodeKey) : List NodeKey :=
  match graph.node? key with
  | some node => node.inputs.filterMap Slot.nodeKey?
  | none => []

/-- The nodes that can be reached from a node, itself included, along the inputs. Each is listed once, before
    the nodes that it was the first to lead to. -/
def reachableFrom (graph : Graph α) (key : NodeKey) : List NodeKey :=
  depthFirst graph.children graph.nodes.keys [key]

/-- Whether a node is, or takes its inputs directly or through others from, another node. -/
def dependsOn (graph : Graph α) (key other : NodeKey) : Bool :=
  decide (key = other) || (graph.reachableFrom key).contains other

end Graph
end Armature
