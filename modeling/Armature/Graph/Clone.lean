import Armature.Graph.Basic

/-!
Cloning graphs: a copy for another instance, with the part of the graph that its output depends on.

Nodes that share a node or a variable in the graph share its copy in the clone.
-/

namespace Armature

variable {α : Type}

/-- What has been copied so far. -/
structure Cloner (α : Type) where
  nodes : Nodes α
  table : VariableTable α
  /-- The copies of nodes, by the numbers of the old keys. -/
  nodeKeys : Std.ExtTreeMap Nat NodeKey
  /-- The copies of variables, by the numbers of the old keys. -/
  variableKeys : Std.ExtTreeMap Nat VariableKey

namespace Cloner

/-- Nothing has been copied; the copies of variables go into a table. -/
def ofTable (table : VariableTable α) : Cloner α := ⟨.empty, table, ∅, ∅⟩

def nodeKey? (cloner : Cloner α) (key : NodeKey) : Option NodeKey := cloner.nodeKeys[key.id]?

def variableKey? (cloner : Cloner α) (key : VariableKey) : Option VariableKey :=
  cloner.variableKeys[key.id]?

/-- Adds the copy of a node. -/
def insertNode (cloner : Cloner α) (key : NodeKey) (copy : Node α) : Cloner α :=
  { cloner with
    nodes := cloner.nodes.insert copy
    nodeKeys := cloner.nodeKeys.insert key.id cloner.nodes.nextKey }

/-- Adds the copy of a variable, which is in a table from now on. -/
def insertVariable (cloner : Cloner α) (key copy : VariableKey) (table : VariableTable α) : Cloner α :=
  { cloner with table, variableKeys := cloner.variableKeys.insert key.id copy }

end Cloner

/-- A node with other inputs. Its cache and playback position are kept, but evaluations count anew. -/
def Node.withInputs (node : Node α) (inputs : List Slot) : Node α := { node with inputs, evaluations := 0 }

/-- Computations that copy parts of a graph. A computation has no result if it would not end, or uses what is not
    there. -/
abbrev Cloning (α : Type) := StateT (Cloner α) Option

namespace Graph

/-- Copies a variable, once; none if it is not there. -/
def cloneVariable (graph : Graph α) (key : VariableKey) : Cloning α (Option VariableKey) := do
  match (← get).variableKey? key with
  | some copy => return some copy
  | none =>
    match graph.table.get? key with
    | none => return none
    | some v =>
      let (copy, table) ← (← get).table.adopt? v
      modify (·.insertVariable key copy table)
      return some copy

/-- The slot that is bound to the copy of what a slot is bound to. Nodes are copied by `cloneNode`. -/
def cloneSlot (graph : Graph α) (cloneNode : NodeKey → Cloning α NodeKey) (slot : Slot) : Cloning α Slot := do
  match slot with
  | .node child => if graph.nodes.contains child then return .node (← cloneNode child) else return .unbound
  | .variable key => return ((← graph.cloneVariable key).map .variable).getD .unbound
  | .unbound => return .unbound

/-- Copies a node, which must be there, and with it the nodes that its inputs are bound to, each once. Nothing but
    the end of the bindings stops this: a node that is met on the way from itself, and so waits no more, would be
    copied for ever. -/
def cloneNode (graph : Graph α) (waiting : List NodeKey) (key : NodeKey) : Cloning α NodeKey := do
  match (← get).nodeKey? key with
  | some copy => return copy
  | none =>
    let node ← graph.node? key
    if _h : key ∈ waiting then
      let inputs ← node.inputs.mapM (graph.cloneSlot (graph.cloneNode (waiting.erase key)))
      let copy := (← get).nodes.nextKey
      modify (·.insertNode key (node.withInputs inputs))
      return copy
    else failure
termination_by waiting.length
decreasing_by
  have := List.length_erase_of_mem _h
  have := List.length_pos_of_mem _h
  omega

/-- The clone of a graph on a table of variables. A named variable that the table lacks is copied into it;
    an unnamed one always is. The cloning itself may have no result. -/
def cloneWithVariables? (graph : Graph α) (table : VariableTable α) : Option (Graph α) := do
  let (output, cloner) ← (graph.output.mapM (graph.cloneNode graph.nodes.keys)).run (.ofTable table)
  return { graph with nodes := cloner.nodes, output, table := cloner.table }

/-- The clone of a graph with copies of all its named variables, if it has a result. -/
def clone? (graph : Graph α) : Option (Graph α) := do
  graph.cloneWithVariables? (← graph.table.copyNamed?)

/-- The clone of a graph on a table of variables. If the cloning has no result, it is the graph itself. -/
def cloneWithVariables (graph : Graph α) (table : VariableTable α) : Graph α :=
  (graph.cloneWithVariables? table).getD graph

/-- The clone of a graph with copies of all its named variables. If the cloning has no result, it is the graph
    itself. -/
def clone (graph : Graph α) : Graph α := graph.clone?.getD graph

end Graph
end Armature
