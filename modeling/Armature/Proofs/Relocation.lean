import Armature.Proofs.AllOrNothing
import Armature.Proofs.Likeness

/-!
# Relocated graphs

A graph whose arenas have handed out some keys already, and whose clock is ahead, is as good as one that starts from
nothing: the same nodes and variables under later keys, with later stamps (`Offset.Relocates`). Edits of the two, with the
keys moved along, succeed or fail alike (`Offset.Relocates.outcome`), and a frame computes the same in both
(`Offset.Relocates.evaluate`). A stamp of zero, of a node that has not been computed, stays zero; it is in the past on
either clock.
-/

namespace Armature

variable {α : Type}

/-- By how much the keys and the clock of one graph are ahead of those of another. -/
structure Offset where
  nodes : Nat
  entries : Nat
  frames : Nat

/-- An edit with other keys in place of its keys. -/
def Edit.rekey (node : NodeKey → NodeKey) (entry : VariableKey → VariableKey) : Edit α → Edit α
  | setOutput output => .setOutput (output.map node)
  | bindNode key index child => .bindNode (node key) index (node child)
  | bindVariable key index variableKey => .bindVariable (node key) index (entry variableKey)
  | bindNamed key index name => .bindNamed (node key) index name
  | bindValue key index value => .bindValue (node key) index value
  | clearInput key index => .clearInput (node key) index
  | resetInputs key => .resetInputs (node key)
  | declareVariable name value => .declareVariable name value
  | setVariable name value => .setVariable name value
  | setVariableKey key value => .setVariableKey (entry key) value

namespace Offset

def nodeKey (offset : Offset) (key : NodeKey) : NodeKey := ⟨key.id + offset.nodes⟩

def variableKey (offset : Offset) (key : VariableKey) : VariableKey := ⟨key.id + offset.entries⟩

def slot (offset : Offset) : Slot → Slot
  | .unbound => .unbound
  | .node key => .node (offset.nodeKey key)
  | .variable key => .variable (offset.variableKey key)

/-- A stamp on the other clock. Zero stands for no computation on both. -/
def stamp (offset : Offset) (n : Nat) : Nat := if n = 0 then 0 else n + offset.frames

def node (offset : Offset) (node : Node α) : Node α :=
  { node with inputs := node.inputs.map offset.slot, lastFrame := offset.stamp node.lastFrame }

def edit (offset : Offset) (edit : Edit α) : Edit α := edit.rekey offset.nodeKey offset.variableKey

/-- A table has the variables of another one under later keys. -/
structure RelocatesTable (offset : Offset) (table other : VariableTable α) : Prop where
  issued : other.entries.issued = table.entries.issued + offset.entries
  get? : ∀ key, other.get? (offset.variableKey key) = table.get? key
  key? : ∀ name, other.key? name = (table.key? name).map offset.variableKey

/-- A graph has the nodes and variables of another one under later keys and with later stamps. -/
structure Relocates (offset : Offset) (graph other : Graph α) : Prop where
  skeleton : other.skeleton = graph.skeleton
  settings : other.settings = graph.settings
  frame : other.frame = graph.frame + offset.frames
  output : other.output = graph.output.map offset.nodeKey
  issued : other.nodes.issued = graph.nodes.issued + offset.nodes
  node? : ∀ key, other.node? (offset.nodeKey key) = (graph.node? key).map offset.node
  table : offset.RelocatesTable graph.table other.table

variable {offset : Offset}

theorem nodeKey_inj {a b : NodeKey} : offset.nodeKey a = offset.nodeKey b ↔ a = b := by
  cases a
  cases b
  simp [nodeKey]

theorem variableKey_inj {a b : VariableKey} : offset.variableKey a = offset.variableKey b ↔ a = b := by
  cases a
  cases b
  simp [variableKey]

theorem input_node (offset : Offset) (node : Node α) (index : Nat) :
    (offset.node node).input index = offset.slot (node.input index) := by
  simp only [Node.input, Offset.node, List.getElem?_map]
  cases node.inputs[index]? <;> rfl

theorem node_bind (offset : Offset) (node : Node α) (index : Nat) (slot : Slot) :
    offset.node (node.bind index slot) = (offset.node node).bind index (offset.slot slot) := by
  simp [Offset.node, Node.bind, List.map_set]

end Offset

/-! ## Outcomes -/

/-- Two edits both succeed, with results that are related, or both fail for the same cause. -/
inductive SameOutcome {β γ : Type} (q : β → γ → Prop) : Except Error β → Except Error γ → Prop
  | ok {b : β} {c : γ} (h : q b c) : SameOutcome q (.ok b) (.ok c)
  | error (cause : Error) : SameOutcome q (.error cause) (.error cause)

namespace SameOutcome

variable {β β' γ γ' : Type} {q : β → γ → Prop} {q' : β' → γ' → Prop} {m : Except Error β} {m' : Except Error γ}

theorem bind {f : β → Except Error β'} {f' : γ → Except Error γ'} (h : SameOutcome q m m')
    (hf : ∀ b c, q b c → SameOutcome q' (f b) (f' c)) : SameOutcome q' (m >>= f) (m' >>= f') := by
  cases h with
  | ok h => exact hf _ _ h
  | error cause => exact .error cause

theorem map {f : β → β'} {f' : γ → γ'} (h : SameOutcome q m m') (hf : ∀ b c, q b c → q' (f b) (f' c)) :
    SameOutcome q' (m.map f) (m'.map f') := by
  cases h with
  | ok h => exact .ok (hf _ _ h)
  | error cause => exact .error cause

theorem of_eq {m m' : Except Error β} (h : m = m') : SameOutcome Eq m m' := by
  subst h
  cases m with
  | ok b => exact .ok rfl
  | error cause => exact .error cause

end SameOutcome

/-! ## Variables -/

namespace Offset.RelocatesTable

variable {offset : Offset} {table other : VariableTable α}

theorem contains (h : offset.RelocatesTable table other) (key : VariableKey) :
    other.contains (offset.variableKey key) = table.contains key :=
  congrArg Option.isSome (h.get? key)

theorem nextKey (h : offset.RelocatesTable table other) : other.nextKey = offset.variableKey table.nextKey :=
  congrArg Key.mk h.issued

theorem insert (h : offset.RelocatesTable table other) (v : Variable α) :
    offset.RelocatesTable (table.insert v) (other.insert v) where
  issued := (congrArg (· + 1) h.issued).trans (Nat.add_right_comm _ _ _)
  get? key := by
    rw [VariableTable.get?_insert, VariableTable.get?_insert, h.nextKey, h.get?]
    simp only [variableKey_inj]
  key? name := by
    rw [VariableTable.key?_insert, VariableTable.key?_insert, h.nextKey, h.key?]
    split <;> rfl

theorem clear (h : offset.RelocatesTable table other) : offset.RelocatesTable table.clear other.clear where
  issued := h.issued
  get? key := by simp
  key? name := by simp

theorem declare (h : offset.RelocatesTable table other) (name : String) (value : Value α) :
    SameOutcome (fun a b => b.1 = offset.variableKey a.1 ∧ offset.RelocatesTable a.2 b.2)
      (table.declare name value) (other.declare name value) := by
  have htaken : other.index.contains name = table.index.contains name := by
    have hkey := congrArg Option.isSome (h.key? name)
    rw [Option.isSome_map] at hkey
    simpa only [VariableTable.key?, ← Std.ExtTreeMap.contains_eq_isSome_getElem?] using hkey
  rw [VariableTable.declare, VariableTable.declare, htaken]
  split
  · exact .error _
  · exact .ok ⟨h.nextKey, h.insert _⟩

theorem modify (h : offset.RelocatesTable table other) (key : VariableKey) (f : Variable α → Variable α) :
    offset.RelocatesTable { table with entries := table.entries.modify key f }
      { other with entries := other.entries.modify (offset.variableKey key) f } where
  issued := h.issued
  get? found := by
    have hget : other.entries.get? (offset.variableKey found) = table.entries.get? found := h.get? found
    simp only [VariableTable.get?, Arena.get?_modify, variableKey_inj, hget]
  key? := h.key?

theorem setKey (h : offset.RelocatesTable table other) (key : VariableKey) (value : Value α) :
    SameOutcome offset.RelocatesTable (table.setKey key value)
      (other.setKey (offset.variableKey key) value) := by
  rw [VariableTable.setKey, VariableTable.setKey, h.get?]
  cases table.get? key with
  | none => exact .error _
  | some v =>
    apply (SameOutcome.of_eq rfl).bind
    rintro w _ rfl
    exact .ok (h.modify key fun _ => w)

theorem set (h : offset.RelocatesTable table other) (name : String) (value : Value α) :
    SameOutcome offset.RelocatesTable (table.set name value) (other.set name value) := by
  rw [VariableTable.set, VariableTable.set, h.key?]
  cases table.key? name with
  | none => exact .error _
  | some key => exact h.setKey key value

theorem find? (h : offset.RelocatesTable table other) (name : String) : other.find? name = table.find? name := by
  rw [VariableTable.find?, VariableTable.find?, h.key?]
  cases table.key? name with
  | none => rfl
  | some key => exact h.get? key

end Offset.RelocatesTable

/-! ## Edits -/

namespace Offset.Relocates

variable {offset : Offset} {graph other : Graph α}

theorem contains (h : offset.Relocates graph other) (key : NodeKey) :
    other.nodes.contains (offset.nodeKey key) = graph.nodes.contains key := by
  have hnode := congrArg Option.isSome (h.node? key)
  rw [Option.isSome_map] at hnode
  exact hnode

theorem nextKey (h : offset.Relocates graph other) : other.nodes.nextKey = offset.nodeKey graph.nodes.nextKey :=
  congrArg Key.mk h.issued

theorem outputPose (h : offset.Relocates graph other) : other.outputPose = graph.outputPose := by
  rw [Graph.outputPose, Graph.outputPose, h.output]
  cases graph.output with
  | none => rfl
  | some key =>
    rw [Option.map_some, Option.bind_some, Option.bind_some, h.node?, Option.map_map]
    rfl

theorem checkInput (h : offset.Relocates graph other) (key : NodeKey) (index : Nat) :
    other.checkInput (offset.nodeKey key) index = graph.checkInput key index := by
  rw [Graph.checkInput, Graph.checkInput, h.node?]
  cases graph.node? key with
  | none => rfl
  | some node => simp [Offset.node]

/-! The search for cycles goes the same ways. -/

theorem binds_iff (h : offset.Relocates graph other) (key last : NodeKey) :
    other.nodes.Binds (offset.nodeKey key) last ↔
      ∃ child, last = offset.nodeKey child ∧ graph.nodes.Binds key child := by
  constructor
  · rintro ⟨node, hnode, hmem⟩
    have hmap := h.node? key
    rw [Graph.node?, hnode] at hmap
    obtain ⟨old, hold, rfl⟩ := Option.map_eq_some_iff.1 hmap.symm
    obtain ⟨slot, hslot, heq⟩ := List.mem_map.1 hmem
    cases slot with
    | node child => exact ⟨child, (Slot.node.inj heq).symm, old, hold, hslot⟩
    | _ => cases heq
  · rintro ⟨child, rfl, node, hnode, hmem⟩
    have hmap := h.node? key
    rw [show graph.node? key = some node from hnode, Option.map_some] at hmap
    exact ⟨offset.node node, hmap, List.mem_map.2 ⟨.node child, hmem, rfl⟩⟩

theorem reaches_iff (h : offset.Relocates graph other) (key target : NodeKey) :
    Relation.ReflTransGen other.nodes.Binds (offset.nodeKey key) (offset.nodeKey target) ↔
      Relation.ReflTransGen graph.nodes.Binds key target := by
  constructor
  · intro hreach
    have hway : ∀ last, Relation.ReflTransGen other.nodes.Binds (offset.nodeKey key) last →
        ∃ child, last = offset.nodeKey child ∧ Relation.ReflTransGen graph.nodes.Binds key child := by
      intro last hlast
      induction hlast with
      | refl => exact ⟨key, rfl, .refl⟩
      | tail _ hbinds ih =>
        obtain ⟨mid, rfl, hmid⟩ := ih
        obtain ⟨child, rfl, hchild⟩ := (h.binds_iff mid _).1 hbinds
        exact ⟨child, rfl, hmid.tail hchild⟩
    obtain ⟨child, heq, hchild⟩ := hway _ hreach
    rw [nodeKey_inj.1 heq]
    exact hchild
  · intro hreach
    exact hreach.lift offset.nodeKey fun a b hbinds => (h.binds_iff a _).2 ⟨b, rfl, hbinds⟩

theorem dependsOn (h : offset.Relocates graph other) (hclosed : graph.nodes.Closed) (hclosed' : other.nodes.Closed)
    (key target : NodeKey) :
    other.dependsOn (offset.nodeKey key) (offset.nodeKey target) = graph.dependsOn key target := by
  rw [Bool.eq_iff_iff, Graph.dependsOn_iff hclosed', Graph.dependsOn_iff hclosed, h.reaches_iff]

theorem modify (h : offset.Relocates graph other) (key : NodeKey) {f f' : Node α → Node α}
    (hf : ∀ node, offset.node (f node) = f' (offset.node node)) :
    offset.Relocates { graph with nodes := graph.nodes.modify key f }
      { other with nodes := other.nodes.modify (offset.nodeKey key) f' } :=
  { h with
    node? := fun found => by
      have hnode : other.nodes.get? (offset.nodeKey found) = (graph.nodes.get? found).map offset.node := h.node? found
      simp only [Graph.node?, Arena.get?_modify, nodeKey_inj, hnode]
      split
      · rw [Option.map_map, Option.map_map]
        congr 1
        funext node
        exact (hf node).symm
      · rfl }

theorem bindSlot (h : offset.Relocates graph other) (key : NodeKey) (index : Nat) (slot : Slot) :
    offset.Relocates (graph.bindSlot key index slot)
      (other.bindSlot (offset.nodeKey key) index (offset.slot slot)) :=
  h.modify key fun node => offset.node_bind node index slot

theorem withTable (h : offset.Relocates graph other) {table table' : VariableTable α}
    (htable : offset.RelocatesTable table table') :
    offset.Relocates { graph with table } { other with table := table' } :=
  { h with table := htable }

theorem setOutput (h : offset.Relocates graph other) (output : Option NodeKey) :
    SameOutcome offset.Relocates (graph.setOutput output) (other.setOutput (output.map offset.nodeKey)) := by
  cases output with
  | none => exact .ok { h with output := rfl }
  | some key =>
    rw [Option.map_some, Graph.setOutput, Graph.setOutput]
    simp only [h.contains]
    split
    · exact .ok { h with output := rfl }
    · exact .error _

theorem bindNode (h : offset.Relocates graph other) (hclosed : graph.nodes.Closed) (hclosed' : other.nodes.Closed)
    (key : NodeKey) (index : Nat) (child : NodeKey) :
    SameOutcome offset.Relocates (graph.bindNode key index child)
      (other.bindNode (offset.nodeKey key) index (offset.nodeKey child)) := by
  rw [Graph.bindNode, Graph.bindNode, h.contains, h.checkInput, h.dependsOn hclosed hclosed']
  split
  · apply (SameOutcome.of_eq rfl).bind
    rintro ⟨⟩ ⟨⟩ -
    split
    · exact .error _
    · exact .ok (h.bindSlot key index (.node child))
  · exact .error _

theorem bindVariable (h : offset.Relocates graph other) (key : NodeKey) (index : Nat) (variableKey : VariableKey) :
    SameOutcome offset.Relocates (graph.bindVariable key index variableKey)
      (other.bindVariable (offset.nodeKey key) index (offset.variableKey variableKey)) := by
  rw [Graph.bindVariable, Graph.bindVariable, h.table.contains, h.checkInput]
  split
  · apply (SameOutcome.of_eq rfl).bind
    rintro ⟨⟩ ⟨⟩ -
    exact .ok (h.bindSlot key index (.variable variableKey))
  · exact .error _

theorem bindNamed (h : offset.Relocates graph other) (key : NodeKey) (index : Nat) (name : String) :
    SameOutcome offset.Relocates (graph.bindNamed key index name)
      (other.bindNamed (offset.nodeKey key) index name) := by
  rw [Graph.bindNamed, Graph.bindNamed, h.table.key?]
  cases graph.table.key? name with
  | none => exact .error _
  | some variableKey => exact h.bindVariable key index variableKey

/-- Two results of edits that add a variable: its key, and the graph afterwards. -/
def RelocatesAdded (offset : Offset) (added added' : VariableKey × Graph α) : Prop :=
  added'.1 = offset.variableKey added.1 ∧ offset.Relocates added.2 added'.2

theorem addLocalVariable (h : offset.Relocates graph other) (value : Value α) :
    RelocatesAdded offset (graph.addLocalVariable value) (other.addLocalVariable value) :=
  ⟨h.table.nextKey, h.withTable (h.table.insert ⟨none, value⟩)⟩

theorem bindValue (h : offset.Relocates graph other) (key : NodeKey) (index : Nat) (value : Value α) :
    SameOutcome (RelocatesAdded offset) (graph.bindValue key index value)
      (other.bindValue (offset.nodeKey key) index value) := by
  rw [Graph.bindValue, Graph.bindValue, h.checkInput]
  apply (SameOutcome.of_eq rfl).bind
  rintro ⟨⟩ ⟨⟩ -
  obtain ⟨hkey, hadded⟩ := h.addLocalVariable value
  refine .ok ⟨hkey, ?_⟩
  have hbound := hadded.bindSlot key index (.variable graph.table.nextKey)
  simp only [Offset.slot, ← h.table.nextKey] at hbound
  exact hbound

theorem clearInput (h : offset.Relocates graph other) (key : NodeKey) (index : Nat) :
    SameOutcome offset.Relocates (graph.clearInput key index) (other.clearInput (offset.nodeKey key) index) := by
  rw [Graph.clearInput, Graph.clearInput, h.checkInput]
  apply (SameOutcome.of_eq rfl).bind
  rintro ⟨⟩ ⟨⟩ -
  exact .ok (h.bindSlot key index .unbound)

theorem resetInputs (h : offset.Relocates graph other) (key : NodeKey) :
    SameOutcome offset.Relocates (graph.resetInputs key) (other.resetInputs (offset.nodeKey key)) := by
  rw [Graph.resetInputs, Graph.resetInputs, h.contains]
  split
  · refine .ok (h.modify key fun node => ?_)
    simp [Offset.node, Offset.slot, Function.comp_def]
  · exact .error _

theorem declareVariable (h : offset.Relocates graph other) (name : String) (value : Value α) :
    SameOutcome (RelocatesAdded offset) (graph.declareVariable name value) (other.declareVariable name value) := by
  apply (h.table.declare name value).bind
  rintro ⟨key, table⟩ ⟨_, table'⟩ ⟨rfl, htable⟩
  exact .ok ⟨rfl, h.withTable htable⟩

theorem setVariable (h : offset.Relocates graph other) (name : String) (value : Value α) :
    SameOutcome offset.Relocates (graph.setVariable name value) (other.setVariable name value) := by
  apply (h.table.set name value).bind
  intro table table' htable
  exact .ok (h.withTable htable)

theorem setVariableKey (h : offset.Relocates graph other) (key : VariableKey) (value : Value α) :
    SameOutcome offset.Relocates (graph.setVariableKey key value)
      (other.setVariableKey (offset.variableKey key) value) := by
  apply (h.table.setKey key value).bind
  intro table table' htable
  exact .ok (h.withTable htable)

/-- The same edit, with its keys moved along, succeeds for both graphs or fails for the same cause. -/
theorem outcome (h : offset.Relocates graph other) (hclosed : graph.nodes.Closed) (hclosed' : other.nodes.Closed)
    (edit : Edit α) :
    SameOutcome (fun a b => b.1 = a.1.map offset.variableKey ∧ offset.Relocates a.2 b.2) (edit.outcome graph)
      ((offset.edit edit).outcome other) := by
  cases edit with
  | setOutput output => exact (h.setOutput output).map fun _ _ hnext => ⟨rfl, hnext⟩
  | bindNode key index child =>
    exact (h.bindNode hclosed hclosed' key index child).map fun _ _ hnext => ⟨rfl, hnext⟩
  | bindVariable key index variableKey =>
    exact (h.bindVariable key index variableKey).map fun _ _ hnext => ⟨rfl, hnext⟩
  | bindNamed key index name => exact (h.bindNamed key index name).map fun _ _ hnext => ⟨rfl, hnext⟩
  | bindValue key index value =>
    exact (h.bindValue key index value).map fun _ _ hnext => ⟨congrArg some hnext.1, hnext.2⟩
  | clearInput key index => exact (h.clearInput key index).map fun _ _ hnext => ⟨rfl, hnext⟩
  | resetInputs key => exact (h.resetInputs key).map fun _ _ hnext => ⟨rfl, hnext⟩
  | declareVariable name value =>
    exact (h.declareVariable name value).map fun _ _ hnext => ⟨congrArg some hnext.1, hnext.2⟩
  | setVariable name value => exact (h.setVariable name value).map fun _ _ hnext => ⟨rfl, hnext⟩
  | setVariableKey key value => exact (h.setVariableKey key value).map fun _ _ hnext => ⟨rfl, hnext⟩

/-- Performed in place, the same edit has the same answer, and leaves graphs one of which is relocated. -/
theorem perform (h : offset.Relocates graph other) (hclosed : graph.nodes.Closed) (hclosed' : other.nodes.Closed)
    (edit : Edit α) :
    SameOutcome (fun key? key?' => key?' = key?.map offset.variableKey) (edit.perform graph).1
        ((offset.edit edit).perform other).1 ∧
      offset.Relocates (edit.perform graph).2 ((offset.edit edit).perform other).2 := by
  have houtcome := h.outcome hclosed hclosed' edit
  rw [Edit.perform, Edit.perform, Edit.perform?_eq, Edit.perform?_eq, Option.getD_some, Option.getD_some]
  generalize edit.outcome graph = a, (offset.edit edit).outcome other = b at houtcome
  cases houtcome with
  | ok hdone => exact ⟨.ok hdone.1, hdone.2⟩
  | error cause => exact ⟨.error cause, h⟩

theorem setTime (h : offset.Relocates graph other) (key : NodeKey) (time : α) :
    offset.Relocates (graph.setTime key time) (other.setTime (offset.nodeKey key) time) := by
  refine h.modify key fun node => ?_
  cases hstate : node.state <;> simp [Offset.node, Node.setTime, hstate]

theorem clearVariables (h : offset.Relocates graph other) :
    offset.Relocates graph.clearVariables other.clearVariables :=
  h.withTable h.table.clear

theorem reset (h : offset.Relocates graph other) : offset.Relocates graph.reset other.reset :=
  { h with output := rfl, node? := fun key => by simp [Graph.node?, Graph.reset], table := h.table.clear }

theorem addNode [Scalar α] (h : offset.Relocates graph other) (kind : NodeKind) :
    (other.addNode kind).1 = offset.nodeKey (graph.addNode kind).1 ∧
      offset.Relocates (graph.addNode kind).2 (other.addNode kind).2 := by
  have hfresh : offset.node (Node.ofKind kind : Node α) = .ofKind kind := by
    simp [Offset.node, Node.ofKind, Offset.slot, Offset.stamp]
  refine ⟨h.nextKey, { h with
    issued := (congrArg (· + 1) h.issued).trans (Nat.add_right_comm _ _ _)
    node? := fun key => ?_ }⟩
  have hnode : other.nodes.get? (offset.nodeKey key) = (graph.nodes.get? key).map offset.node := h.node? key
  simp only [Graph.node?, Graph.addNode, Arena.get?_insert, h.nextKey, nodeKey_inj, hnode]
  split
  · rw [Option.map_some, hfresh]
  · rfl

/-! ## Frames -/

section Frames

variable {cleared cleared' : Prop}

/-- Nodes that are alive correspond to those under the later keys. -/
def Corresponds (offset : Offset) (graph : Graph α) (key key' : NodeKey) : Prop :=
  key' = offset.nodeKey key ∧ graph.nodes.contains key

theorem slotAlike (h : offset.Relocates graph other) (slot : Slot) (expected : InputType) :
    Graph.SlotAlike (Corresponds offset graph) graph other expected slot (offset.slot slot) := by
  rcases slot with _ | child | key
  · exact ⟨Graph.rel_childAt? (fun _ => .none) expected, rfl⟩
  · refine ⟨Graph.rel_childAt? (fun type => ?_) expected, rfl⟩
    have hnode' : other.nodes.get? (offset.nodeKey child) = (graph.nodes.get? child).map offset.node := h.node? child
    cases hnode : graph.nodes.get? child with
    | none =>
      rw [hnode, Option.map_none] at hnode'
      simp only [Offset.slot, Frame.typedChild?, Slot.nodeKey?, Option.filter_some, hnode, hnode', Option.any_none]
      exact .none
    | some node =>
      rw [hnode, Option.map_some] at hnode'
      exact Graph.rel_typedChild? ⟨rfl, Nodes.contains_of_get? hnode⟩ hnode hnode' rfl type
  · refine ⟨Graph.rel_childAt? (fun _ => .none) expected, ?_⟩
    have hheld : Graph.held other.table (offset.slot (.variable key)) = Graph.held graph.table (.variable key) :=
      h.table.get? key
    rw [VariableTable.valueAt?, VariableTable.valueAt?, hheld]

theorem alike (h : offset.Relocates graph other) (hgraph : graph.WellFormed cleared) :
    Graph.Alike (Corresponds offset graph) graph other where
  skeleton := h.skeleton.symm
  settings := h.settings.symm
  unique := ⟨fun _ _ _ ha hb => nodeKey_inj.1 (ha.1.symm.trans hb.1), fun _ _ _ ha hb => ha.1.trans hb.1.symm⟩
  output := by
    have hlive := hgraph.output
    rw [h.output]
    cases houtput : graph.output with
    | none => exact .none
    | some key => exact .some ⟨rfl, hlive key houtput⟩
  nodes := by
    rintro key _ ⟨rfl, hlive⟩
    obtain ⟨node, hnode⟩ := Nodes.get?_of_contains hlive
    have hnode' := h.node? key
    rw [show graph.node? key = some node from hnode, Option.map_some] at hnode'
    refine ⟨node, offset.node node, hnode, hnode', rfl, rfl, fun index expected _ => ?_⟩
    rw [offset.input_node]
    exact h.slotAlike _ expected

variable [Scalar α]

/-- A frame computes the same in both graphs, and stamps what it computes on either clock. -/
theorem evaluate (h : offset.Relocates graph other) (hgraph : graph.WellFormed cleared)
    (hother : other.WellFormed cleared') (timestep : α) :
    (other.evaluate timestep).1 = (graph.evaluate timestep).1 ∧
      offset.Relocates (graph.evaluate timestep).2 (other.evaluate timestep).2 := by
  have hprogress := hgraph.progress_evaluate timestep
  have hprogress' := hother.progress_evaluate timestep
  refine ⟨((h.alike hgraph).evaluate_fst hgraph hother timestep).symm, ?_, ?_, ?_, ?_, ?_, fun key => ?_, ?_⟩
  · rw [hgraph.skeleton_evaluate, hother.skeleton_evaluate, h.skeleton]
  · rw [hgraph.settings_evaluate, hother.settings_evaluate, h.settings]
  · rw [hgraph.frame_evaluate, hother.frame_evaluate, h.frame, Nat.add_right_comm]
  · rw [hgraph.output_evaluate, hother.output_evaluate, h.output]
  · rw [hprogress.issued, hprogress'.issued, h.issued]
  · have hnode' := h.node? key
    cases hnode : graph.node? key with
    | none =>
      rw [hnode, Option.map_none] at hnode'
      rw [Graph.node?, Graph.node?, hprogress.get?_eq_none hnode, hprogress'.get?_eq_none hnode', Option.map_none]
    | some node =>
      rw [hnode, Option.map_some] at hnode'
      rcases (h.alike hgraph).node?_evaluate hgraph hother timestep ⟨rfl, Nodes.contains_of_get? hnode⟩ hnode hnode' with
        ⟨hafter, hafter'⟩ | ⟨state, hafter, hafter'⟩
      · rw [hafter, hafter', Option.map_some]
      · rw [hafter, hafter', Option.map_some, h.frame]
        simp [Offset.node, Node.computed, Offset.stamp, Nat.add_right_comm]
  · rw [hgraph.table_evaluate, hother.table_evaluate]
    exact h.table

end Frames

end Offset.Relocates

end Armature
