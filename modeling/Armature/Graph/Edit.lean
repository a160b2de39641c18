import Armature.Graph.Basic

/-!
Editing graphs. An edit that fails leaves no trace: it returns its cause instead of a graph.
-/

namespace Armature.Graph

variable {α : Type}

/-- Adds a node with nothing bound. -/
def addNode [Scalar α] (graph : Graph α) (kind : NodeKind) : NodeKey × Graph α :=
  (graph.nodes.nextKey, { graph with nodes := graph.nodes.insert (.ofKind kind) })

/-- Chooses the node that computes the pose of the graph, or none. -/
def setOutput (graph : Graph α) (output : Option NodeKey) : Except Error (Graph α) :=
  match output with
  | some key =>
    if graph.nodes.contains key then .ok { graph with output } else .error .unknownNode
  | none => .ok { graph with output }

/-- Fails unless a node has an input of an index. -/
def checkInput (graph : Graph α) (key : NodeKey) (index : Nat) : Except Error Unit :=
  match graph.node? key with
  | none => .error .unknownNode
  | some node =>
    if index < node.inputs.length then .ok ()
    else .error (.inputOutOfRange index node.inputs.length)

/-- Binds an input, which must be there. -/
def bindSlot (graph : Graph α) (key : NodeKey) (index : Nat) (slot : Slot) : Graph α :=
  { graph with nodes := graph.nodes.modify key (·.bind index slot) }

/-- Binds an input to a node. The node must not depend on the node of the input. -/
def bindNode (graph : Graph α) (key : NodeKey) (index : Nat) (child : NodeKey) :
    Except Error (Graph α) :=
  if graph.nodes.contains child then do
    graph.checkInput key index
    if graph.dependsOn child key then .error .cycle
    else return graph.bindSlot key index (.node child)
  else .error .unknownNode

def bindVariable (graph : Graph α) (key : NodeKey) (index : Nat) (variableKey : VariableKey) :
    Except Error (Graph α) :=
  if graph.table.contains variableKey then do
    graph.checkInput key index
    return graph.bindSlot key index (.variable variableKey)
  else .error .unknownVariableKey

def bindNamed (graph : Graph α) (key : NodeKey) (index : Nat) (name : String) :
    Except Error (Graph α) :=
  match graph.table.key? name with
  | some variableKey => graph.bindVariable key index variableKey
  | none => .error (.unknownVariable name)

def declareVariable (graph : Graph α) (name : String) (value : Value α) :
    Except Error (VariableKey × Graph α) := do
  let (variableKey, table) ← graph.table.declare name value
  return (variableKey, { graph with table })

def addLocalVariable (graph : Graph α) (value : Value α) : VariableKey × Graph α :=
  let (variableKey, table) := graph.table.addLocal value
  (variableKey, { graph with table })

/-- Binds an input to a new unnamed variable with the given value. -/
def bindValue (graph : Graph α) (key : NodeKey) (index : Nat) (value : Value α) :
    Except Error (VariableKey × Graph α) := do
  graph.checkInput key index
  let (variableKey, graph) := graph.addLocalVariable value
  return (variableKey, graph.bindSlot key index (.variable variableKey))

def clearInput (graph : Graph α) (key : NodeKey) (index : Nat) : Except Error (Graph α) := do
  graph.checkInput key index
  return graph.bindSlot key index .unbound

def resetInputs (graph : Graph α) (key : NodeKey) : Except Error (Graph α) :=
  if graph.nodes.contains key then
    .ok { graph with
      nodes := graph.nodes.modify key fun node =>
        { node with inputs := node.inputs.map fun _ => .unbound } }
  else .error .unknownNode

def setVariable (graph : Graph α) (name : String) (value : Value α) : Except Error (Graph α) := do
  let table ← graph.table.set name value
  return { graph with table }

def setVariableKey (graph : Graph α) (key : VariableKey) (value : Value α) :
    Except Error (Graph α) := do
  let table ← graph.table.setKey key value
  return { graph with table }

/-- Removes all variables, and leaves the inputs that they drove bound to nothing that exists. -/
def clearVariables (graph : Graph α) : Graph α :=
  { graph with table := graph.table.clear }

/-- Moves the playback position of a clip sampler. Other nodes have none. -/
def setTime (graph : Graph α) (key : NodeKey) (time : α) : Graph α :=
  { graph with nodes := graph.nodes.modify key (·.setTime time) }

/-- Removes all nodes and variables. The frames go on counting. -/
def reset (graph : Graph α) : Graph α :=
  { graph with output := none, nodes := graph.nodes.clear, table := graph.table.clear }

end Armature.Graph
