import Armature.Graph.Edit

/-!
Descriptions of graphs, as authoring tools write them, and the graphs that they describe.

A description refers to nodes by their place in the list of nodes, and to variables and clips by name.
-/

namespace Armature

/-- The value of a variable in a description. -/
inductive ValueDescription (α : Type) where
  | bool (b : Bool)
  | float (x : α)
  /-- The name of a clip, if one is assigned. -/
  | animation (clip : Option String)
deriving BEq, DecidableEq

/-- A named variable in a description. -/
structure VariableDescription (α : Type) where
  name : String
  value : ValueDescription α
deriving BEq, DecidableEq

/-- The input of a node in a description. -/
inductive InputDescription (α : Type) where
  /-- The result of the node at a place in the list. -/
  | node (place : Nat)
  /-- A declared variable. -/
  | variable (name : String)
  /-- A truth value for this input alone. -/
  | bool (b : Bool)
  /-- A number for this input alone. -/
  | float (x : α)
deriving BEq, DecidableEq

/-- A node in a description. Inputs that are none, or missing at the end, are unbound. -/
structure NodeDescription (α : Type) where
  kind : NodeKind
  inputs : List (Option (InputDescription α))
deriving BEq, DecidableEq

/-- A description of a graph. -/
structure Description (α : Type) where
  declarations : List (VariableDescription α)
  nodes : List (NodeDescription α)
  /-- The place of the output node. -/
  output : Option Nat
deriving BEq, DecidableEq

/-- Clips by name. -/
abbrev ClipLibrary (α : Type) := Std.ExtTreeMap String (Asset (Clip α))

/-- The value that is described. -/
def ValueDescription.resolve {α : Type} (clips : ClipLibrary α) :
    ValueDescription α → Except Error (Value α)
  | .bool b => .ok (.bool b)
  | .float x => .ok (.float x)
  | .animation none => .ok (.animation none)
  | .animation (some name) =>
    match clips[name]? with
    | some clip => .ok (.animation (some clip))
    | none => .error (.unknownClip name)

namespace Description

variable {α : Type}

/-- Declares a described variable. -/
def declare (clips : ClipLibrary α) (graph : Graph α) (v : VariableDescription α) :
    Except Error (Graph α) := do
  let value ← v.value.resolve clips
  let (_, graph) ← graph.declareVariable v.name value
  return graph

/-- Adds nodes of some kinds, and returns their keys in order. -/
def addNodes [Scalar α] (graph : Graph α) : List NodeKind → List NodeKey × Graph α
  | [] => ([], graph)
  | kind :: kinds =>
    let (key, graph) := graph.addNode kind
    let (keys, graph) := addNodes graph kinds
    (key :: keys, graph)

/-- Binds one input of the node at a place, given the keys of all nodes. -/
def bindInput (keys : List NodeKey) (place : Nat) (key : NodeKey) (graph : Graph α) :
    Option (InputDescription α) × Nat → Except Error (Graph α)
  | (none, _) => .ok graph
  | (some (.node child), index) =>
    match keys[child]? with
    | some childKey => graph.bindNode key index childKey
    | none => .error (.missingInput place index child)
  | (some (.variable name), index) => graph.bindNamed key index name
  | (some (.bool b), index) => (graph.bindValue key index (.bool b)).map (·.2)
  | (some (.float x), index) => (graph.bindValue key index (.float x)).map (·.2)

/-- Binds the inputs of the node at a place, given the keys of all nodes. -/
def bindInputs (keys : List NodeKey) (graph : Graph α) :
    (NodeDescription α × NodeKey) × Nat → Except Error (Graph α)
  | ((node, key), place) =>
    if node.kind.arity < node.inputs.length then
      .error (.inputOutOfRange (node.inputs.length - 1) node.kind.arity)
    else node.inputs.zipIdx.foldlM (bindInput keys place key) graph

/-- The graph that is described: first the variables, then the nodes with their inputs, then the output. -/
def compile [Scalar α] (d : Description α) (skeleton : Asset (Skeleton α)) (clips : ClipLibrary α)
    (settings : Settings α) : Except Error (Graph α) := do
  let graph ← d.declarations.foldlM (declare clips) (Graph.ofSkeleton skeleton settings)
  let (keys, graph) := addNodes graph (d.nodes.map (·.kind))
  let graph ← (d.nodes.zip keys).zipIdx.foldlM (bindInputs keys) graph
  match d.output with
  | none => return graph
  | some place =>
    match keys[place]? with
    | some key => graph.setOutput (some key)
    | none => .error (.missingOutput place)

end Description
end Armature
