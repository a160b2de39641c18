import Armature.Proofs.Likeness

/-!
# Twins

Two graphs whose nodes correspond to each other one to one, with the same kinds and states, and with inputs that are
bound to corresponding nodes or read equal variables (`Graph.Twins`). A frame computes corresponding nodes to the same
states (`Graph.Twins.evaluate`), although it may find them under other keys, and although there may be other nodes
around them.
-/

namespace Armature

variable {α : Type}

namespace Graph

/-- Two slots are bound to corresponding nodes, or to none and read equal variables. -/
inductive SlotTwin (r : NodeKey → NodeKey → Prop) (table table' : VariableTable α) : Slot → Slot → Prop
  | node {key key' : NodeKey} (h : r key key') : SlotTwin r table table' (.node key) (.node key')
  | held {slot slot' : Slot} (hslot : slot.nodeKey? = none) (hslot' : slot'.nodeKey? = none)
      (h : held table slot = held table' slot') : SlotTwin r table table' slot slot'

/-- Two nodes of one kind with one state and one stamp, bound to twins. -/
structure NodeTwin (r : NodeKey → NodeKey → Prop) (table table' : VariableTable α) (node node' : Node α) :
    Prop where
  kind : node.kind = node'.kind
  state : node.state = node'.state
  lastFrame : node.lastFrame = node'.lastFrame
  inputs : List.Forall₂ (SlotTwin r table table') node.inputs node'.inputs

/-- Two graphs with the same skeleton, settings and frame, with outputs that correspond and variables of the same names
    and values, in which nodes that correspond are twins. -/
structure Twins (r : NodeKey → NodeKey → Prop) (graph twin : Graph α) : Prop where
  skeleton : graph.skeleton = twin.skeleton
  settings : graph.settings = twin.settings
  frame : graph.frame = twin.frame
  names : ∀ name, graph.table.find? name = twin.table.find? name
  unique : Relator.BiUnique r
  output : Option.Rel r graph.output twin.output
  nodes : ∀ key key', r key key' → ∃ node node', graph.node? key = some node ∧ twin.node? key' = some node' ∧
    NodeTwin r graph.table twin.table node node'

variable {r : NodeKey → NodeKey → Prop} {graph twin : Graph α} {table table' : VariableTable α}

/-! ## Likeness -/

/-- The inputs of twins are twins, also where they have none. -/
theorem NodeTwin.input {node node' : Node α} (h : NodeTwin r table table' node node') (index : Nat) :
    SlotTwin r table table' (node.input index) (node'.input index) := by
  have hinputs := h.inputs
  unfold Node.input
  generalize node.inputs = slots, node'.inputs = slots' at hinputs
  induction hinputs generalizing index with
  | nil => exact .held rfl rfl rfl
  | cons hslot _ ih =>
    cases index with
    | zero => exact hslot
    | succ index => exact ih index

/-- Slots that are twins see alike, whatever is expected there. -/
theorem Twins.slotAlike (h : Twins r graph twin) {slot slot' : Slot}
    (hslot : SlotTwin r graph.table twin.table slot slot') (expected : InputType) :
    SlotAlike r graph twin expected slot slot' := by
  cases hslot with
  | @node key key' hr =>
    obtain ⟨node, node', hnode, hnode', htwin⟩ := h.nodes key key' hr
    exact ⟨rel_childAt? (rel_typedChild? hr hnode hnode' htwin.kind) expected, rfl⟩
  | held hslot hslot' heq =>
    refine ⟨rel_childAt? (fun type => ?_) expected, by rw [VariableTable.valueAt?, VariableTable.valueAt?, heq]⟩
    simp only [Frame.typedChild?, hslot, hslot', Option.filter_none]
    exact .none

theorem Twins.alike (h : Twins r graph twin) : Alike r graph twin where
  skeleton := h.skeleton
  settings := h.settings
  unique := h.unique
  output := h.output
  nodes key key' hr := by
    obtain ⟨node, node', hnode, hnode', htwin⟩ := h.nodes key key' hr
    exact ⟨node, node', hnode, hnode', htwin.kind, htwin.state, fun index expected _ =>
      h.slotAlike (htwin.input index) expected⟩

/-! ## Variables -/

/-- Twins stay twins when what their inputs read of their tables is changed alike. -/
theorem Twins.withTables (h : Twins r graph twin) (f : Variable α → Variable α)
    (hnames : ∀ name, table.find? name = table'.find? name)
    (hheld : ∀ key node slot, graph.node? key = some node → slot ∈ node.inputs →
      held table slot = (held graph.table slot).map f)
    (hheld' : ∀ key node slot, twin.node? key = some node → slot ∈ node.inputs →
      held table' slot = (held twin.table slot).map f) :
    Twins r { graph with table } { twin with table := table' } := by
  refine { h with names := hnames, nodes := fun key key' hr => ?_ }
  obtain ⟨node, node', hnode, hnode', hnodes⟩ := h.nodes key key' hr
  refine ⟨node, node', hnode, hnode', { hnodes with inputs := ?_ }⟩
  refine forall₂_of_mem hnodes.inputs fun slot hslot slot' hslot' htwin => ?_
  cases htwin with
  | node hr => exact .node hr
  | held hnone hnone' heq =>
    refine .held hnone hnone' ?_
    rw [hheld key node slot hnode hslot, heq, hheld' key' node' slot' hnode' hslot']

/-- A new variable changes nothing that inputs read. -/
theorem WellFormed.held_insert {cleared : Prop} (h : graph.WellFormed cleared) (v : Variable α) {key : NodeKey}
    {node : Node α} {slot : Slot} (hnode : graph.node? key = some node) (hslot : slot ∈ node.inputs) :
    held (graph.table.insert v) slot = (held graph.table slot).map id := by
  rw [Option.map_id_apply]
  rcases slot with _ | child | variableKey
  · rfl
  · rfl
  · have hissued := (h.fits key node hnode).issued hslot
    have hne : variableKey ≠ graph.table.nextKey := by
      rintro rfl
      exact Nat.lt_irrefl _ hissued
    exact (VariableTable.get?_insert _ _ _).trans (if_neg hne)

/-- The variable of a name with another value; other variables as they are. -/
def reassign (name : String) (value : Value α) (v : Variable α) : Variable α :=
  if v.name = some name then { v with value } else v

end Graph

namespace VariableTable

/-- An assignment gives the variable of the name another value. -/
theorem Exact.get?_set {table next : VariableTable α} (h : table.Exact) {name : String} {value : Value α}
    (hnext : table.set name value = .ok next) (key : VariableKey) :
    next.get? key = (table.get? key).map (Graph.reassign name value) := by
  obtain ⟨named, hnamed, hset⟩ := set_eq_ok hnext
  rw [get?_setKey hset]
  cases hv : table.get? key with
  | none => simp
  | some v =>
    have hiff : key = named ↔ v.name = some name := by
      constructor
      · rintro rfl
        obtain ⟨w, hw, hname⟩ := h.get?_of_key? hnamed
        rw [← Option.some.inj (hw.symm.trans hv)]
        exact hname
      · intro hname
        exact Option.some.inj ((h.key?_of_get? hv hname).symm.trans hnamed)
    by_cases hname : v.name = some name <;> simp [hiff, hname, Graph.reassign]

theorem Exact.held_set {table next : VariableTable α} (h : table.Exact) {name : String} {value : Value α}
    (hnext : table.set name value = .ok next) (slot : Slot) :
    Graph.held next slot = (Graph.held table slot).map (Graph.reassign name value) := by
  unfold Graph.held
  cases slot.variableKey? with
  | none => rfl
  | some key => exact h.get?_set hnext key

theorem key?_set {table next : VariableTable α} {name : String} {value : Value α}
    (hnext : table.set name value = .ok next) (other : String) : next.key? other = table.key? other := by
  obtain ⟨named, -, hset⟩ := set_eq_ok hnext
  exact key?_setKey hset other

theorem Exact.find?_set {table next : VariableTable α} (h : table.Exact) {name : String} {value : Value α}
    (hnext : table.set name value = .ok next) (other : String) :
    next.find? other = (table.find? other).map (Graph.reassign name value) := by
  rw [find?, find?, key?_set hnext]
  cases hkey : table.key? other with
  | none => rfl
  | some key => exact h.get?_set hnext key

/-- Whether a variable can be assigned depends on the variable of the name alone. -/
theorem Exact.map_set {table : VariableTable α} (h : table.Exact) (name : String) (value : Value α) :
    (table.set name value).map (fun _ => ()) =
      match table.find? name with
      | none => .error (.unknownVariable name)
      | some v => (v.assign value).map fun _ => () := by
  unfold VariableTable.set find?
  cases hkey : table.key? name with
  | none => rfl
  | some key =>
    obtain ⟨v, hv, -⟩ := h.get?_of_key? hkey
    simp only [VariableTable.setKey, hv, Option.bind_some]
    cases v.assign value <;> rfl

/-- Whether a variable can be declared depends on the variable of the name alone. -/
theorem Exact.map_declare {table : VariableTable α} (h : table.Exact) (name : String) (value : Value α) :
    (table.declare name value).map (fun _ => ()) =
      match table.find? name with
      | none => .ok ()
      | some _ => .error (.duplicateVariable name) := by
  unfold find?
  cases hkey : table.key? name with
  | none =>
    have hfree : name ∉ table.index := by simpa [key?] using hkey
    simp [VariableTable.declare, hfree, Except.map]
  | some key =>
    obtain ⟨v, hv, -⟩ := h.get?_of_key? hkey
    have htaken : name ∈ table.index := by
      rw [Std.ExtTreeMap.mem_iff_isSome_getElem?]
      exact congrArg Option.isSome hkey
    simp [VariableTable.declare, htaken, hv, Except.map]

end VariableTable

namespace Graph

variable {r : NodeKey → NodeKey → Prop} {graph twin : Graph α} {table table' : VariableTable α}

/-! ## Frames -/

theorem Twins.outputPose (h : Twins r graph twin) : graph.outputPose = twin.outputPose := by
  have houtput := h.output
  unfold Graph.outputPose
  generalize graph.output = a, twin.output = b at houtput
  cases houtput with
  | none => rfl
  | some hr =>
    obtain ⟨node, node', hnode, hnode', htwin⟩ := h.nodes _ _ hr
    have hpose : node.pose = node'.pose := by rw [Node.pose, Node.pose, htwin.state]
    rw [Option.bind_some, Option.bind_some, hnode, hnode', Option.map_some, Option.map_some, hpose]

variable [Scalar α] {cleared cleared' : Prop}

/-- Twins stay twins in a frame. -/
theorem Twins.evaluate (h : Twins r graph twin) (hgraph : graph.WellFormed cleared)
    (htwin : twin.WellFormed cleared') (timestep : α) :
    Twins r (graph.evaluate timestep).2 (twin.evaluate timestep).2 := by
  have hframe : graph.frame + 1 = twin.frame + 1 := congrArg (· + 1) h.frame
  rw [hgraph.evaluate_snd, htwin.evaluate_snd]
  refine { h with frame := hframe, nodes := fun key key' hr => ?_ }
  obtain ⟨node, node', hnode, hnode', hnodes⟩ := h.nodes key key' hr
  rcases h.alike.node?_evaluate hgraph htwin timestep hr hnode hnode' with ⟨hnext, hnext'⟩ | ⟨state, hnext, hnext'⟩
  · exact ⟨node, node', hnext, hnext', hnodes⟩
  · exact ⟨_, _, hnext, hnext', hnodes.kind, rfl, hframe, hnodes.inputs⟩

end Graph
end Armature
