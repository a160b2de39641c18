import Armature.Proofs.Evaluation

/-!
# Where nodes and values come from

What commands can leave in a graph, said once for all of them. A node is new, or has become of a node of the graph in
one of three ways: its inputs or its count have changed, its playback has been moved, or the frame has computed it
(`Command.Makes`). A value of a variable has been in the graph, or the command has brought it in. A key that leads to
nothing never leads to a node again (`Graph.WellFormed.leaves_run`). What holds of all nodes and values of a graph is
shown along these lines, with no look at the commands.
-/

namespace Armature

variable {α : Type}

/-! ## Keys that are not handed out again -/

namespace Arena

variable {kind : KeyKind} {β : Type}

/-- An arena has handed out a key, whether there still is an entry or not. -/
def HandedOut (arena : Arena kind β) (key : Key kind) : Prop := key.id < arena.issued

/-- An arena is what has become of another one: none of the keys that had been handed out came back to life. -/
structure Advances (arena next : Arena kind β) : Prop where
  issued : arena.issued ≤ next.issued
  gone : ∀ key, arena.HandedOut key → arena.get? key = none → next.get? key = none

theorem Advances.refl (arena : Arena kind β) : arena.Advances arena :=
  ⟨Nat.le_refl _, fun _ _ h => h⟩

theorem Advances.trans {arena next last : Arena kind β} (h : arena.Advances next) (hnext : next.Advances last) :
    arena.Advances last where
  issued := Nat.le_trans h.issued hnext.issued
  gone key hkey hgone := hnext.gone key (Nat.lt_of_lt_of_le hkey h.issued) (h.gone key hkey hgone)

theorem advances_insert (arena : Arena kind β) (entry : β) : arena.Advances (arena.insert entry) where
  issued := Nat.le_succ _
  gone key hkey hgone := by
    have hold : key ≠ arena.nextKey := by
      rintro rfl
      exact Nat.lt_irrefl _ hkey
    rw [get?_insert, if_neg hold, hgone]

theorem advances_modify (arena : Arena kind β) (key : Key kind) (f : β → β) : arena.Advances (arena.modify key f) where
  issued := Nat.le_refl _
  gone other _ hgone := by
    rw [get?_modify, hgone]
    split <;> rfl

theorem advances_clear (arena : Arena kind β) : arena.Advances arena.clear :=
  ⟨Nat.le_refl _, fun _ _ _ => get?_clear _ _⟩

theorem handedOut_of_get? {arena : Arena kind β} {key : Key kind} {entry : β} (h : arena.get? key = some entry) :
    arena.HandedOut key := by
  by_contra hlater
  have hnone := arena.entries_issued key.id (Nat.le_of_not_lt hlater)
  rw [get?, hnone] at h
  cases h

end Arena

/-! ## Values -/

namespace VariableTable

/-- The values that variables of a table have. -/
def values (table : VariableTable α) : Set (Value α) := {value | ∃ key v, table.get? key = some v ∧ v.value = value}

variable {table next : VariableTable α}

theorem mem_values {key : VariableKey} {v : Variable α} (h : table.get? key = some v) : v.value ∈ table.values :=
  ⟨key, v, h, rfl⟩

@[simp] theorem values_empty : (empty : VariableTable α).values = ∅ := by
  refine Set.eq_empty_of_forall_notMem ?_
  rintro value ⟨key, v, hv, -⟩
  simp [empty, get?] at hv

@[simp] theorem values_clear (table : VariableTable α) : table.clear.values = ∅ := by
  refine Set.eq_empty_of_forall_notMem ?_
  rintro value ⟨key, v, hv, -⟩
  simp at hv

theorem values_insert_subset (table : VariableTable α) (v : Variable α) :
    (table.insert v).values ⊆ table.values ∪ {v.value} := by
  rintro value ⟨key, w, hw, rfl⟩
  rw [get?_insert] at hw
  split at hw
  · obtain rfl := Option.some.inj hw
    exact .inr rfl
  · exact .inl (mem_values hw)

theorem values_setKey_subset {key : VariableKey} {value : Value α} (h : table.setKey key value = .ok next) :
    next.values ⊆ table.values ∪ {value} := by
  rintro other ⟨key, w, hw, rfl⟩
  rw [get?_setKey h] at hw
  split at hw
  · obtain ⟨old, -, rfl⟩ := Option.map_eq_some_iff.1 hw
    exact .inr rfl
  · exact .inl (mem_values hw)

theorem Exact.values_copyNamed_subset (h : table.Exact) : table.copyNamed.values ⊆ table.values := by
  have hnamed : ∀ entry ∈ table.named, entry.2.2.value ∈ table.values := by
    intro entry hentry
    exact mem_values ((h.mem_named_iff _ _ _).1 hentry).2
  rw [h.copyNamed_eq_foldl]
  refine List.foldlRecOn (motive := fun copy : VariableTable α => copy.values ⊆ table.values) table.named _ (by simp) ?_
  intro copy hcopy entry hentry
  have hvalue := Set.singleton_subset_iff.2 (hnamed entry hentry)
  exact (values_insert_subset copy entry.2.2).trans (Set.union_subset hcopy hvalue)

end VariableTable

/-- A copy of a variable has the value that it has in the graph, or in the table that the copies went into. -/
theorem Cloner.Faithful.values_subset {graph : Graph α} {start : VariableTable α} {cloner : Cloner α}
    (h : Cloner.Faithful graph start cloner) (hstart : start.Reached) :
    cloner.table.values ⊆ graph.table.values ∪ start.values := by
  rintro value ⟨key, v, hv, rfl⟩
  rcases h.exists_origin hstart hv with hold | ⟨source, hsource⟩
  · exact .inr (VariableTable.mem_values hold)
  · exact .inl (VariableTable.mem_values hsource)

/-! ## Commands -/

namespace Command

/-- The values that a command brings into a graph. -/
def values : Command α → Set (Value α)
  | bindValue _ _ value | declareVariable _ value | addLocalVariable value | setVariable _ value
  | setVariableKey _ value => {value}
  | cloneWithVariables table _ => table.values
  | _ => ∅

/-- A command goes on with a clone, which has keys of its own. -/
def Clones : Command α → Prop
  | clone | cloneWithVariables _ _ => True
  | _ => False

variable [Scalar α]

/-- The ways in which a node of the next graph comes from a command and from the nodes of a graph. -/
inductive Makes (graph : Graph α) (h : graph.nodes.Acyclic) : Command α → Node α → Prop
  | fresh (kind : NodeKind) : Makes graph h (.addNode kind) (.ofKind kind)
  | rebind {key : NodeKey} {node : Node α} (command : Command α) (inputs : List Slot) (evaluations : Nat)
      (hnode : graph.node? key = some node) : Makes graph h command { node with inputs, evaluations }
  | move {key : NodeKey} {node : Node α} (time : α) (hnode : graph.node? key = some node) :
      Makes graph h (.setTime key time) (node.setTime time)
  | finish {key : NodeKey} {node : Node α} (timestep : α) (hnode : graph.node? key = some node) :
      Makes graph h (.evaluate timestep)
        ((graph.nextFrame timestep).finish (graph.nextMeaning h timestep) node)

variable {graph : Graph α} {h : graph.nodes.Acyclic} {command : Command α}

theorem makes_of_node? {key : NodeKey} {node : Node α} (hnode : graph.node? key = some node) :
    command.Makes graph h node :=
  .rebind command node.inputs node.evaluations hnode

/-- The nodes of a graph after new inputs have been given to one of them. -/
theorem makes_modify {f : List Slot → List Slot} {key other : NodeKey} {node : Node α}
    (hnode : (graph.nodes.modify key fun node => { node with inputs := f node.inputs }).get? other = some node) :
    command.Makes graph h node := by
  rw [Arena.get?_modify] at hnode
  split at hnode
  · obtain ⟨old, hold, rfl⟩ := Option.map_eq_some_iff.1 hnode
    exact .rebind command (f old.inputs) old.evaluations hold
  · exact makes_of_node? hnode

theorem makes_bindSlot {key other : NodeKey} {index : Nat} {slot : Slot} {node : Node α}
    (hnode : (graph.bindSlot key index slot).node? other = some node) : command.Makes graph h node :=
  makes_modify (f := fun inputs => inputs.set index slot) hnode

end Command

namespace Graph

variable [Scalar α] {graph : Graph α}

theorem CopiedBy.makes {start : VariableTable α} {cloner : Cloner α} (hcopied : graph.CopiedBy start cloner)
    {h : graph.nodes.Acyclic} {command : Command α} {copy : NodeKey} {node : Node α}
    (hnode : (graph.clonedBy cloner).node? copy = some node) : command.Makes graph h node := by
  obtain ⟨key, hcopy⟩ := hcopied.faithful.copies copy (Nodes.contains_of_get? hnode)
  obtain ⟨source, inputs, hsource, hget, -⟩ := hcopied.faithful.copied_node key copy hcopy
  obtain rfl := Option.some.inj (hget.symm.trans hnode)
  exact .rebind command inputs 0 hsource

/-- What a command can leave in a graph: the skeleton, nodes that the command makes of its nodes, and values that it had
    or that the command brings in. A key that leads to nothing does not come back to life, but for commands that go on
    with a clone. -/
structure Leaves (graph : Graph α) (h : graph.nodes.Acyclic) (command : Command α) (next : Graph α) : Prop where
  skeleton : next.skeleton = graph.skeleton
  makes : ∀ key node, next.node? key = some node → command.Makes graph h node
  values : next.table.values ⊆ graph.table.values ∪ command.values
  advances : ¬ command.Clones → graph.nodes.Advances next.nodes

variable {h : graph.nodes.Acyclic} {command : Command α}

theorem Leaves.refl : graph.Leaves h command graph :=
  ⟨rfl, fun _ _ hnode => Command.makes_of_node? hnode, Set.subset_union_left, fun _ => .refl _⟩

theorem leaves_bindSlot (key : NodeKey) (index : Nat) (slot : Slot) :
    graph.Leaves h command (graph.bindSlot key index slot) :=
  ⟨rfl, fun _ _ hnode => Command.makes_bindSlot hnode, Set.subset_union_left, fun _ => Arena.advances_modify _ _ _⟩

theorem leaves_withTable {table : VariableTable α} (htable : table.values ⊆ graph.table.values ∪ command.values) :
    graph.Leaves h command { graph with table } :=
  ⟨rfl, fun _ _ hnode => Command.makes_of_node? hnode, htable, fun _ => .refl _⟩

theorem WellFormed.leaves_cloneWithVariables {cleared : Prop} (hwell : graph.WellFormed cleared)
    {table : VariableTable α} (htable : table.Reached) (hcommand : command.Clones)
    (hvalues : table.values ⊆ graph.table.values ∪ command.values) :
    graph.Leaves h command (graph.cloneWithVariables table) := by
  obtain ⟨cloner, hclone, hcopied⟩ := hwell.cloneWithVariables?_eq_some htable
  rw [Graph.cloneWithVariables, hclone]
  refine ⟨rfl, fun _ _ hnode => hcopied.makes hnode, ?_, fun hkeys => absurd hcommand hkeys⟩
  exact (hcopied.faithful.values_subset htable).trans (Set.union_subset Set.subset_union_left hvalues)

theorem WellFormed.leaves_evaluate {cleared : Prop} (hwell : graph.WellFormed cleared) (timestep : α) :
    graph.Leaves hwell.acyclic (.evaluate timestep) (graph.evaluate timestep).2 where
  skeleton := hwell.skeleton_evaluate timestep
  makes key node hnode := by
    have hprogress := hwell.progress_evaluate timestep
    by_cases hkey : key ∈ graph.nextDemand hwell.acyclic timestep
    · obtain ⟨old, hold, rfl⟩ := Option.map_eq_some_iff.1 ((hprogress.finished key hkey).symm.trans hnode)
      exact .finish timestep hold
    · exact Command.makes_of_node? ((hprogress.untouched key hkey).symm.trans hnode)
  values := by
    rw [hwell.table_evaluate]
    exact Set.subset_union_left
  advances _ := by
    have hprogress := hwell.progress_evaluate timestep
    exact ⟨Nat.le_of_eq hprogress.issued.symm, fun _ _ hgone => hprogress.get?_eq_none hgone⟩

/-- What any command leaves in a graph. -/
theorem WellFormed.leaves_run (hwell : graph.WellFormed True) (command : Command α) :
    graph.Leaves hwell.acyclic command (command.run graph) := by
  cases command with
  | addNode kind =>
    refine ⟨rfl, fun key node hnode => ?_, Set.subset_union_left, fun _ => Arena.advances_insert _ _⟩
    rw [Command.run, node?, Graph.addNode, Arena.get?_insert] at hnode
    split at hnode
    · obtain rfl := Option.some.inj hnode
      exact .fresh kind
    · exact Command.makes_of_node? hnode
  | setOutput output =>
    refine orKeep_induction .refl fun next hnext => ?_
    obtain ⟨-, rfl⟩ := setOutput_eq_ok hnext
    exact ⟨rfl, fun _ _ hnode => Command.makes_of_node? hnode, Set.subset_union_left, fun _ => .refl _⟩
  | bindNode key index child =>
    refine orKeep_induction .refl fun next hnext => ?_
    obtain ⟨-, -, -, rfl⟩ := bindNode_eq_ok hnext
    exact leaves_bindSlot key index _
  | bindVariable key index variableKey =>
    refine orKeep_induction .refl fun next hnext => ?_
    obtain ⟨-, -, rfl⟩ := bindVariable_eq_ok hnext
    exact leaves_bindSlot key index _
  | bindNamed key index name =>
    refine orKeep_induction .refl fun next hnext => ?_
    obtain ⟨variableKey, -, hnext⟩ := bindNamed_eq_ok hnext
    obtain ⟨-, -, rfl⟩ := bindVariable_eq_ok hnext
    exact leaves_bindSlot key index _
  | bindValue key index value =>
    refine orKeep_induction .refl fun next hnext => ?_
    obtain ⟨⟨variableKey, next⟩, hbind, rfl⟩ := map_eq_ok hnext
    obtain ⟨-, -, rfl⟩ := bindValue_eq_ok hbind
    have hbound (slot : Slot) : graph.Leaves hwell.acyclic (.bindValue key index value) (graph.bindSlot key index slot) :=
      leaves_bindSlot key index slot
    exact ⟨rfl, (hbound _).makes, VariableTable.values_insert_subset _ _, (hbound _).advances⟩
  | clearInput key index =>
    refine orKeep_induction .refl fun next hnext => ?_
    obtain ⟨-, rfl⟩ := clearInput_eq_ok hnext
    exact leaves_bindSlot key index _
  | resetInputs key =>
    refine orKeep_induction .refl fun next hnext => ?_
    obtain ⟨-, rfl⟩ := resetInputs_eq_ok hnext
    exact ⟨rfl, fun _ _ hnode => Command.makes_modify hnode, Set.subset_union_left, fun _ => Arena.advances_modify _ _ _⟩
  | declareVariable name value =>
    refine orKeep_induction .refl fun next hnext => ?_
    obtain ⟨⟨variableKey, next⟩, hdeclare, rfl⟩ := map_eq_ok hnext
    obtain ⟨table, htable, rfl⟩ := declareVariable_eq_ok hdeclare
    obtain ⟨-, -, rfl⟩ := VariableTable.declare_eq_ok htable
    exact leaves_withTable (VariableTable.values_insert_subset _ _)
  | addLocalVariable value => exact leaves_withTable (VariableTable.values_insert_subset _ _)
  | setVariable name value =>
    refine orKeep_induction .refl fun next hnext => ?_
    obtain ⟨table, hset, rfl⟩ := setVariable_eq_ok hnext
    obtain ⟨key, -, hset⟩ := VariableTable.set_eq_ok hset
    exact leaves_withTable (VariableTable.values_setKey_subset hset)
  | setVariableKey key value =>
    refine orKeep_induction .refl fun next hnext => ?_
    obtain ⟨table, hset, rfl⟩ := setVariableKey_eq_ok hnext
    exact leaves_withTable (VariableTable.values_setKey_subset hset)
  | clearVariables => exact leaves_withTable (by simp)
  | setTime key time =>
    refine ⟨rfl, fun other node hnode => ?_, Set.subset_union_left, fun _ => Arena.advances_modify _ _ _⟩
    rw [Command.run, node?, Graph.setTime, Arena.get?_modify] at hnode
    split at hnode
    · next heq =>
      obtain ⟨old, hold, rfl⟩ := Option.map_eq_some_iff.1 hnode
      subst heq
      exact .move time hold
    · exact Command.makes_of_node? hnode
  | reset =>
    refine ⟨rfl, fun key node hnode => ?_, ?_, fun _ => Arena.advances_clear _⟩
    · simp [node?, Command.run, Graph.reset] at hnode
    · simp [Command.run, Graph.reset]
  | evaluate timestep => exact hwell.leaves_evaluate timestep
  | clone =>
    rw [Command.run, hwell.clone_eq]
    have hvalues := hwell.table.exact.values_copyNamed_subset
    exact hwell.leaves_cloneWithVariables hwell.table.copyNamed trivial (hvalues.trans Set.subset_union_left)
  | cloneWithVariables table htable => exact hwell.leaves_cloneWithVariables htable trivial Set.subset_union_right

end Graph
end Armature
