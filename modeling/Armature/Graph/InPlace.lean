import Armature.Graph.Edit

/-!
Editing graphs in place.

An edit in place is a sequence of checks and writes. A write changes the graph at once, and a check that fails
afterwards does not take it back. Writing to what is not there has no result.
-/

namespace Armature

/-- Steps of an edit in place: they answer or fail, and either way leave the graph as they have made it by then. -/
abbrev InPlace (α : Type) := ExceptT Error (StateT (Graph α) Option)

namespace InPlace

variable {α β : Type}

def run (steps : InPlace α β) (graph : Graph α) : Option (Except Error β × Graph α) :=
  StateT.run (ExceptT.run steps) graph

/-! ### Checks -/

/-- What a look at the graph yields; a look may fail. -/
def look (f : Graph α → Except Error β) : InPlace α β := do
  match f (← get) with
  | .ok b => return b
  | .error cause => throw cause

/-- Fails for a cause unless a condition holds. -/
def require (condition : Graph α → Bool) (cause : Error) : InPlace α Unit :=
  look fun graph => if condition graph then .ok () else .error cause

/-- The key of a named variable. -/
def findVariable (name : String) : InPlace α VariableKey :=
  look fun graph =>
    match graph.table.key? name with
    | some key => .ok key
    | none => .error (.unknownVariable name)

/-! ### Writes -/

/-- Writes to the graph; what is not there cannot be written to. -/
def write (f : Graph α → Option (Graph α)) : InPlace α Unit := do
  match f (← get) with
  | some graph => set graph
  | none => liftM (failure : StateT (Graph α) Option Unit)

def writeOutput (output : Option NodeKey) : InPlace α Unit :=
  write fun graph => some { graph with output }

/-- Writes to a node. -/
def writeNode (key : NodeKey) (f : Node α → Option (Node α)) : InPlace α Unit :=
  write fun graph => do
    let node ← f (← graph.node? key)
    return { graph with nodes := graph.nodes.modify key fun _ => node }

/-- Writes to an input of a node. -/
def writeSlot (key : NodeKey) (index : Nat) (slot : Slot) : InPlace α Unit :=
  writeNode key fun node => if index < node.inputs.length then some (node.bind index slot) else none

/-- Writes to a variable. -/
def writeVariable (key : VariableKey) (v : Variable α) : InPlace α Unit :=
  write fun graph => do
    let _ ← graph.table.get? key
    return { graph with table := { graph.table with entries := graph.table.entries.modify key fun _ => v } }

/-- Adds a variable, and returns its key. -/
def addVariable (v : Variable α) : InPlace α VariableKey := do
  let key := (← get).table.nextKey
  write fun graph => some { graph with table := graph.table.insert v }
  return key

/-! ### Edits -/

def setOutput (output : Option NodeKey) : InPlace α Unit := do
  if let some key := output then
    require (·.nodes.contains key) .unknownNode
  writeOutput output

def bindNode (key : NodeKey) (index : Nat) (child : NodeKey) : InPlace α Unit := do
  require (·.nodes.contains child) .unknownNode
  look (·.checkInput key index)
  require (!·.dependsOn child key) .cycle
  writeSlot key index (.node child)

def bindVariable (key : NodeKey) (index : Nat) (variableKey : VariableKey) : InPlace α Unit := do
  require (·.table.contains variableKey) .unknownVariableKey
  look (·.checkInput key index)
  writeSlot key index (.variable variableKey)

def bindNamed (key : NodeKey) (index : Nat) (name : String) : InPlace α Unit := do
  bindVariable key index (← findVariable name)

def bindValue (key : NodeKey) (index : Nat) (value : Value α) : InPlace α VariableKey := do
  look (·.checkInput key index)
  let variableKey ← addVariable ⟨none, value⟩
  writeSlot key index (.variable variableKey)
  return variableKey

def clearInput (key : NodeKey) (index : Nat) : InPlace α Unit := do
  look (·.checkInput key index)
  writeSlot key index .unbound

def resetInputs (key : NodeKey) : InPlace α Unit := do
  require (·.nodes.contains key) .unknownNode
  writeNode key fun node => some { node with inputs := node.inputs.map fun _ => .unbound }

def declareVariable (name : String) (value : Value α) : InPlace α VariableKey := do
  require (!·.table.index.contains name) (.duplicateVariable name)
  addVariable ⟨some name, value⟩

def setVariableKey (key : VariableKey) (value : Value α) : InPlace α Unit := do
  let v ← look fun graph =>
    match graph.table.get? key with
    | some v => v.assign value
    | none => .error .unknownVariableKey
  writeVariable key v

def setVariable (name : String) (value : Value α) : InPlace α Unit := do
  setVariableKey (← findVariable name) value

end InPlace

/-- The edits that may be refused. -/
inductive Edit (α : Type) where
  | setOutput (output : Option NodeKey)
  | bindNode (key : NodeKey) (index : Nat) (child : NodeKey)
  | bindVariable (key : NodeKey) (index : Nat) (variableKey : VariableKey)
  | bindNamed (key : NodeKey) (index : Nat) (name : String)
  | bindValue (key : NodeKey) (index : Nat) (value : Value α)
  | clearInput (key : NodeKey) (index : Nat)
  | resetInputs (key : NodeKey)
  | declareVariable (name : String) (value : Value α)
  | setVariable (name : String) (value : Value α)
  | setVariableKey (key : VariableKey) (value : Value α)

namespace Edit

variable {α : Type}

/-- The steps of an edit. They answer with the key of the variable that they add, if they add one. -/
def steps : Edit α → InPlace α (Option VariableKey)
  | setOutput output => do InPlace.setOutput output; return none
  | bindNode key index child => do InPlace.bindNode key index child; return none
  | bindVariable key index variableKey => do InPlace.bindVariable key index variableKey; return none
  | bindNamed key index name => do InPlace.bindNamed key index name; return none
  | bindValue key index value => some <$> InPlace.bindValue key index value
  | clearInput key index => do InPlace.clearInput key index; return none
  | resetInputs key => do InPlace.resetInputs key; return none
  | declareVariable name value => some <$> InPlace.declareVariable name value
  | setVariable name value => do InPlace.setVariable name value; return none
  | setVariableKey key value => do InPlace.setVariableKey key value; return none

/-- What an edit answers, and the graph that it leaves. -/
def perform? (edit : Edit α) (graph : Graph α) : Option (Except Error (Option VariableKey) × Graph α) :=
  edit.steps.run graph

/-- What an edit answers, and the graph that it leaves. If it has no result, nothing happens. -/
def perform (edit : Edit α) (graph : Graph α) : Except Error (Option VariableKey) × Graph α :=
  (edit.perform? graph).getD (.ok none, graph)

end Edit
end Armature
