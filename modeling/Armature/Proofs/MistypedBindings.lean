import Armature.Proofs.Observation
import Armature.Proofs.TableHistory

/-!
# Mistyped bindings

An input that is bound to something of a type that it does not take sees nothing there (`Graph.Blind`). It goes on
seeing nothing while the graph is played: no node changes its kind, and no variable its type. So whoever plays the graph
finds no difference if such inputs are bound to nothing (`Graph.Reached.records_clearMistyped`).
-/

namespace Armature

variable {α : Type}

namespace Graph

/-- Whether a slot is bound to something of a type that an input does not take. -/
def mistyped (graph : Graph α) (expected : InputType) : Slot → Bool
  | .unbound => false
  | .node child =>
    match expected.resultType? with
    | none => true
    | some type => (graph.node? child).any (·.kind.resultType ≠ type)
  | .variable key =>
    match expected.valueType? with
    | none => true
    | some type => (graph.table.get? key).any (·.value.type ≠ type)

/-- The inputs, each with the key of its node, that are bound to something of a type that they do not take. -/
def mistypedInputs (graph : Graph α) : List (NodeKey × Nat) :=
  graph.nodes.toList.flatMap fun (key, node) =>
    (List.range node.kind.arity).filterMap fun index =>
      if node.kind.inputs[index]?.any fun expected => graph.mistyped expected (node.input index) then some (key, index)
      else none

/-- An input sees no node and no value. -/
def Blind (graph : Graph α) (expected : InputType) (slot : Slot) : Prop :=
  graph.childAt? expected slot = none ∧ graph.table.valueAt? expected slot = none

end Graph

/-- The node with some of its inputs bound to nothing. -/
def Node.clearWhere (node : Node α) (p : Nat → Bool) : Node α :=
  { node with inputs := node.inputs.mapIdx fun index slot => if p index then .unbound else slot }

/-- What is seen of a graph and of each of its nodes by whoever calls it. -/
structure Record (α : Type) where
  observation : Observation α
  memory : NodeKey → Option (NodeKind × NodeState α × Nat × Nat)

namespace Graph

/-- Whether what an input sees nothing of is mistyped or not there, it sees nothing. -/
theorem blind_of_mistyped {graph : Graph α} {expected : InputType} {slot : Slot}
    (h : graph.mistyped expected slot) : graph.Blind expected slot := by
  rcases slot with _ | child | key
  · cases h
  · refine ⟨?_, rfl⟩
    cases htype : expected.resultType? with
    | none => rw [childAt?, htype, Option.bind_none]
    | some type =>
      simp only [mistyped, htype, Option.any_eq_true, decide_eq_true_eq] at h
      obtain ⟨node, hnode, hne⟩ := h
      have hnode : graph.nodes.get? child = some node := hnode
      simp [childAt?, htype, Frame.typedChild?, Slot.nodeKey?, Option.filter_some, hnode, hne]
  · refine ⟨?_, ?_⟩
    · cases htype : expected.resultType? with
      | none => rw [childAt?, htype, Option.bind_none]
      | some type => rw [childAt?, htype, Option.bind_some]; rfl
    · cases htype : expected.valueType? with
      | none => simp [VariableTable.valueAt?, htype]
      | some type =>
        simp only [mistyped, htype, Option.any_eq_true, decide_eq_true_eq] at h
        obtain ⟨v, hv, hne⟩ := h
        simp [VariableTable.valueAt?, held, Slot.variableKey?, htype, hv, Option.filter_some, Ne.symm hne]

/-- Two graphs that are the same but for inputs that see nothing and are bound to nothing in the second. -/
structure Pruned (graph other : Graph α) : Prop where
  skeleton : other.skeleton = graph.skeleton
  settings : other.settings = graph.settings
  frame : other.frame = graph.frame
  output : other.output = graph.output
  table : other.table = graph.table
  memory : ∀ key, (other.node? key).map Node.memory = (graph.node? key).map Node.memory
  inputs : ∀ key node node', graph.node? key = some node → other.node? key = some node' →
    ∀ index expected, node.kind.inputs[index]? = some expected → node'.input index = node.input index ∨
      (node'.input index = .unbound ∧ graph.Blind expected (node.input index))

variable {graph other : Graph α} {cleared : Prop}

theorem Pruned.exists_node (h : Pruned graph other) {key : NodeKey} {node : Node α}
    (hnode : graph.node? key = some node) : ∃ node', other.node? key = some node' ∧ node'.memory = node.memory := by
  have hmemory := h.memory key
  rw [hnode, Option.map_some] at hmemory
  exact Option.map_eq_some_iff.1 hmemory

theorem Pruned.kind (h : Pruned graph other) (key : NodeKey) :
    (other.nodes.get? key).map (·.kind) = (graph.nodes.get? key).map (·.kind) := by
  have hmemory := congrArg (Option.map (·.1)) (h.memory key)
  rw [Option.map_map, Option.map_map] at hmemory
  exact hmemory

theorem Pruned.outputPose (h : Pruned graph other) : other.outputPose = graph.outputPose := by
  have hpose : ∀ key, (other.node? key).map (·.pose) = (graph.node? key).map (·.pose) := by
    intro key
    cases hnode : graph.node? key with
    | none =>
      have hmemory := h.memory key
      rw [hnode, Option.map_none, Option.map_eq_none_iff] at hmemory
      rw [hmemory]
    | some node =>
      obtain ⟨node', hnode', hmemory⟩ := h.exists_node hnode
      have hstate : node'.state = node.state := congrArg (·.2.1) hmemory
      rw [hnode', Option.map_some, Option.map_some, Node.pose, Node.pose, hstate]
  rw [Graph.outputPose, Graph.outputPose, h.output]
  cases graph.output with
  | none => rfl
  | some key => exact hpose key

/-! ## Playing -/

/-- A graph and its pruned version are alike, each node with itself. -/
theorem Pruned.alike (h : Pruned graph other) (hgraph : graph.WellFormed cleared) :
    Alike (fun key key' => key = key' ∧ graph.nodes.contains key) graph other where
  skeleton := h.skeleton.symm
  settings := h.settings.symm
  unique := ⟨fun _ _ _ ha hb => ha.1.trans hb.1.symm, fun _ _ _ ha hb => ha.1.symm.trans hb.1⟩
  output := by
    have hlive := hgraph.output
    rw [h.output]
    cases houtput : graph.output with
    | none => exact .none
    | some key => exact .some ⟨rfl, hlive key houtput⟩
  nodes := by
    rintro key _ ⟨rfl, hlive⟩
    obtain ⟨node, hnode⟩ := Nodes.get?_of_contains hlive
    obtain ⟨node', hnode', hmemory⟩ := h.exists_node hnode
    simp only [Node.memory, Prod.mk.injEq] at hmemory
    refine ⟨node, node', hnode, hnode', hmemory.1.symm, hmemory.2.1.symm, fun index expected hexpected => ?_⟩
    rcases h.inputs key node node' hnode hnode' index expected hexpected with heq | ⟨hunbound, hchild, hvalue⟩
    · rw [heq]
      refine ⟨rel_childAt? (fun type => ?_) expected, by rw [h.table]⟩
      rw [Frame.typedChild?_congr h.kind]
      cases hsees : Frame.typedChild? graph.nodes type (node.input index) with
      | none => exact .none
      | some child =>
        obtain ⟨-, childNode, hget, -⟩ := Frame.typedChild?_eq_some_iff.1 hsees
        exact .some ⟨rfl, Nodes.contains_of_get? hget⟩
    · rw [hunbound]
      refine ⟨?_, by rw [hvalue]; rfl⟩
      rw [hchild, childAt?]
      cases expected.resultType? with
      | none => exact .none
      | some type => exact .none

/-- What sees nothing goes on doing so if kinds stay and variables keep their types. -/
theorem Blind.continues {next : Graph α} {expected : InputType} {slot : Slot} (h : graph.Blind expected slot)
    (hkinds : ∀ key, (next.nodes.get? key).map (·.kind) = (graph.nodes.get? key).map (·.kind))
    (htable : graph.table.Continues next.table)
    (hissued : ∀ key, slot = .variable key → key.id < graph.table.entries.issued) : next.Blind expected slot := by
  obtain ⟨hchild, hvalue⟩ := h
  refine ⟨?_, ?_⟩
  · rw [← hchild, childAt?, childAt?]
    congr 1
    funext type
    exact Frame.typedChild?_congr hkinds type slot
  · rcases slot with _ | child | key
    · rfl
    · rfl
    · rw [VariableTable.valueAt?, Option.filter_eq_none_iff]
      rintro value hnext
      obtain ⟨w, hw, rfl⟩ := Option.map_eq_some_iff.1 hnext
      obtain ⟨v, hv, hsignature⟩ := htable.signature key (hissued key rfl) w hw
      have htype : w.value.type = v.value.type := congrArg Prod.snd hsignature
      rw [VariableTable.valueAt?, Option.filter_eq_none_iff] at hvalue
      rw [htype]
      exact hvalue v.value (Option.map_eq_some_iff.2 ⟨v, hv, rfl⟩)

theorem WellFormed.issued_of_input (h : graph.WellFormed cleared) {key : NodeKey} {node : Node α}
    (hnode : graph.node? key = some node) {index : Nat} {variableKey : VariableKey}
    (hinput : node.input index = .variable variableKey) : variableKey.id < graph.table.entries.issued := by
  have hmem : node.input index ∈ node.inputs := Frame.mem_inputs_of_ne_unbound (by simp [hinput])
  rw [hinput] at hmem
  exact (h.fits key node hnode).issued hmem

/-- An assignment or a declaration leaves a pruned graph pruned. -/
theorem Pruned.withTable (h : Pruned graph other) (hgraph : graph.WellFormed cleared) {table : VariableTable α}
    (htable : graph.table.Continues table) : Pruned { graph with table } { other with table } := by
  refine { h with table := rfl, inputs := fun key node node' hnode hnode' index expected hexpected => ?_ }
  rcases h.inputs key node node' hnode hnode' index expected hexpected with heq | ⟨hunbound, hblind⟩
  · exact .inl heq
  · refine .inr ⟨hunbound, hblind.continues (fun _ => rfl) htable fun variableKey hslot => ?_⟩
    exact hgraph.issued_of_input hnode hslot

theorem Pruned.setVariable (h : Pruned graph other) (hgraph : graph.WellFormed cleared) (name : String)
    (value : Value α) :
    (other.setVariable name value).map (fun _ => ()) = (graph.setVariable name value).map (fun _ => ()) ∧
      Pruned (graph.orKeep (graph.setVariable name value)) (other.orKeep (other.setVariable name value)) := by
  unfold Graph.setVariable
  rw [h.table]
  cases hset : graph.table.set name value with
  | error => exact ⟨rfl, h⟩
  | ok table =>
    obtain ⟨key, -, hkey⟩ := VariableTable.set_eq_ok hset
    exact ⟨rfl, h.withTable hgraph (VariableTable.continues_setKey hkey)⟩

theorem Pruned.declareVariable (h : Pruned graph other) (hgraph : graph.WellFormed cleared) (name : String)
    (value : Value α) :
    (other.declareVariable name value).map (fun _ => ()) = (graph.declareVariable name value).map (fun _ => ()) ∧
      Pruned (graph.orKeep ((graph.declareVariable name value).map (·.2)))
        (other.orKeep ((other.declareVariable name value).map (·.2))) := by
  unfold Graph.declareVariable
  rw [h.table]
  cases hdeclare : graph.table.declare name value with
  | error => exact ⟨rfl, h⟩
  | ok declared =>
    obtain ⟨key, table⟩ := declared
    obtain ⟨-, -, rfl⟩ := VariableTable.declare_eq_ok hdeclare
    exact ⟨rfl, h.withTable hgraph (VariableTable.continues_insert _ _)⟩

variable [Scalar α] {cleared' : Prop}

/-- A frame leaves the node of a key as it is in both graphs, or computes it to the same state in both. -/
theorem Pruned.node?_evaluate (h : Pruned graph other) (hgraph : graph.WellFormed cleared)
    (hother : other.WellFormed cleared') (timestep : α) {key : NodeKey} {next next' : Node α}
    (hnext : (graph.evaluate timestep).2.node? key = some next)
    (hnext' : (other.evaluate timestep).2.node? key = some next') :
    ∃ node node', graph.node? key = some node ∧ other.node? key = some node' ∧
      (next = node ∧ next' = node' ∨
        ∃ state, next = node.computed (graph.frame + 1) state ∧ next' = node'.computed (graph.frame + 1) state) := by
  have hkind := (hgraph.progress_evaluate timestep).kind key
  have hnext₀ : (graph.evaluate timestep).2.nodes.get? key = some next := hnext
  rw [hnext₀, Option.map_some] at hkind
  obtain ⟨node, hnode, -⟩ := Option.map_eq_some_iff.1 hkind.symm
  obtain ⟨node', hnode', -⟩ := h.exists_node hnode
  refine ⟨node, node', hnode, hnode', ?_⟩
  rcases (h.alike hgraph).node?_evaluate hgraph hother timestep ⟨rfl, Nodes.contains_of_get? hnode⟩ hnode hnode' with
    ⟨hafter, hafter'⟩ | ⟨state, hafter, hafter'⟩
  · exact .inl ⟨Option.some.inj (hnext.symm.trans hafter), Option.some.inj (hnext'.symm.trans hafter')⟩
  · rw [h.frame] at hafter'
    exact .inr ⟨state, Option.some.inj (hnext.symm.trans hafter), Option.some.inj (hnext'.symm.trans hafter')⟩

theorem Pruned.evaluate (h : Pruned graph other) (hgraph : graph.WellFormed cleared)
    (hother : other.WellFormed cleared') (timestep : α) :
    Pruned (graph.evaluate timestep).2 (other.evaluate timestep).2 := by
  have hkinds := fun key => (hgraph.progress_evaluate timestep).kind key
  have hkinds' : ∀ key, ((other.evaluate timestep).2.node? key).map (·.kind) =
      ((graph.evaluate timestep).2.node? key).map (·.kind) := fun key =>
    ((hother.progress_evaluate timestep).kind key).trans ((h.kind key).trans (hkinds key).symm)
  refine ⟨?_, ?_, ?_, ?_, ?_, fun key => ?_, fun key next next' hnext hnext' index expected hexpected => ?_⟩
  · rw [hgraph.skeleton_evaluate, hother.skeleton_evaluate, h.skeleton]
  · rw [hgraph.settings_evaluate, hother.settings_evaluate, h.settings]
  · rw [hgraph.frame_evaluate, hother.frame_evaluate, h.frame]
  · rw [hgraph.output_evaluate, hother.output_evaluate, h.output]
  · rw [hgraph.table_evaluate, hother.table_evaluate, h.table]
  · have hkind := hkinds' key
    cases hnext : (graph.evaluate timestep).2.node? key with
    | none =>
      rw [hnext, Option.map_none, Option.map_eq_none_iff] at hkind
      rw [hkind]
    | some next =>
      rw [hnext, Option.map_some] at hkind
      obtain ⟨next', hnext', -⟩ := Option.map_eq_some_iff.1 hkind
      obtain ⟨node, node', hnode, hnode', hcases⟩ := h.node?_evaluate hgraph hother timestep hnext hnext'
      have hmemory := h.memory key
      rw [hnode, hnode', Option.map_some, Option.map_some, Option.some.injEq] at hmemory
      rw [hnext', Option.map_some, Option.map_some]
      rcases hcases with ⟨rfl, rfl⟩ | ⟨state, rfl, rfl⟩
      · rw [hmemory]
      · simp only [Node.memory, Prod.mk.injEq] at hmemory
        simp only [Node.memory, Node.computed, hmemory]
  · obtain ⟨node, node', hnode, hnode', hcases⟩ := h.node?_evaluate hgraph hother timestep hnext hnext'
    have hsame : next.kind = node.kind ∧ next.input index = node.input index ∧ next'.input index = node'.input index := by
      rcases hcases with ⟨rfl, rfl⟩ | ⟨state, rfl, rfl⟩ <;> exact ⟨rfl, rfl, rfl⟩
    rw [hsame.1] at hexpected
    rw [hsame.2.1, hsame.2.2]
    refine (h.inputs key node node' hnode hnode' index expected hexpected).imp_right fun ⟨hunbound, hblind⟩ => ?_
    refine ⟨hunbound, hblind.continues hkinds ?_ fun variableKey hslot => hgraph.issued_of_input hnode hslot⟩
    rw [hgraph.table_evaluate]
    exact .refl _

/-- A graph and its pruned version answer a call alike, and one is the pruned version of the other after it. -/
theorem Pruned.run (h : Pruned graph other) (hgraph : graph.WellFormed cleared) (hother : other.WellFormed cleared')
    {call : Call α} (hplays : call.Plays) :
    (call.run other).1 = (call.run graph).1 ∧ Pruned (call.run graph).2 (call.run other).2 := by
  have heval := fun timestep => h.evaluate hgraph hother timestep
  have hpose := fun timestep => ((h.alike hgraph).evaluate_fst hgraph hother timestep).symm
  have hupdate : ∀ timestep rootParent,
      (other.updateWithRoot timestep rootParent).1 = (graph.updateWithRoot timestep rootParent).1 := by
    intro timestep rootParent
    simp only [Graph.updateWithRoot, hpose, (heval timestep).skeleton]
  cases call with
  | setVariable name value =>
    obtain ⟨houtcome, hnext⟩ := h.setVariable hgraph name value
    exact ⟨congrArg Answer.edited houtcome, hnext⟩
  | declareVariable name value =>
    obtain ⟨houtcome, hnext⟩ := h.declareVariable hgraph name value
    exact ⟨congrArg Answer.edited houtcome, hnext⟩
  | evaluate timestep => exact ⟨congrArg Answer.evaluated (hpose timestep), heval timestep⟩
  | update timestep =>
    have hroot := hupdate timestep other.settings.rootTransform
    refine ⟨congrArg Answer.updated (hroot.trans ?_), heval timestep⟩
    rw [h.settings]
    rfl
  | updateWithRoot timestep rootParent =>
    exact ⟨congrArg Answer.updated (hupdate timestep rootParent), heval timestep⟩
  | other command => exact hplays.elim

/-- What is seen of a graph and of its nodes in one call after the other. -/
def records (graph : Graph α) : List (Call α) → List (Record α)
  | [] => []
  | call :: calls =>
    let (answer, next) := call.run graph
    ⟨⟨answer, next.frame, next.outputPose⟩, fun key => (next.node? key).map Node.memory⟩ :: next.records calls

theorem Pruned.records (h : Pruned graph other) (hgraph : graph.WellFormed True) (hother : other.WellFormed True)
    {calls : List (Call α)} (hplays : ∀ call ∈ calls, call.Plays) : other.records calls = graph.records calls := by
  induction calls generalizing graph other with
  | nil => rfl
  | cons call calls ih =>
    obtain ⟨hcall, hcalls⟩ := List.forall_mem_cons.1 hplays
    obtain ⟨hanswer, hnext⟩ := h.run hgraph hother hcall
    have hrest := ih hnext (hgraph.call call) (hother.call call) hcalls
    simp only [Graph.records, hanswer, hnext.frame, hnext.outputPose, hnext.memory, hrest]

/-! ## Clearing -/

/-- The graph after some of its inputs have been cleared. -/
def clearInputs (graph : Graph α) (inputs : List (NodeKey × Nat)) : Graph α :=
  (inputs.map fun (key, index) => .clearInput key index).foldl Command.run graph

/-- The graph with every input cleared that is bound to something of a type that it does not take. -/
def clearMistyped (graph : Graph α) : Graph α := graph.clearInputs graph.mistypedInputs

theorem Reached.clearInputs (h : graph.Reached) (inputs : List (NodeKey × Nat)) : (graph.clearInputs inputs).Reached :=
  ReachedBy.foldl h fun _ _ => trivial

omit [Scalar α] in
theorem mem_mistypedInputs_iff {key : NodeKey} {index : Nat} :
    (key, index) ∈ graph.mistypedInputs ↔ ∃ node expected, graph.node? key = some node ∧
      node.kind.inputs[index]? = some expected ∧ graph.mistyped expected (node.input index) := by
  simp only [mistypedInputs, List.mem_flatMap, List.mem_filterMap, List.mem_range, Option.any_eq_true]
  constructor
  · rintro ⟨⟨other, node⟩, hnode, place, -, hplace⟩
    split at hplace
    · next hmistyped =>
      obtain ⟨expected, hexpected, hmistyped⟩ := hmistyped
      obtain ⟨rfl, rfl⟩ := Prod.mk.inj (Option.some.inj hplace)
      exact ⟨node, expected, (Arena.mem_toList _ _ _).1 hnode, hexpected, hmistyped⟩
    · cases hplace
  · rintro ⟨node, expected, hnode, hexpected, hmistyped⟩
    refine ⟨(key, node), (Arena.mem_toList _ _ _).2 hnode, index, (List.getElem?_eq_some_iff.1 hexpected).1, ?_⟩
    exact if_pos ⟨expected, hexpected, hmistyped⟩

omit [Scalar α] in
theorem input_clearWhere (node : Node α) (p : Nat → Bool) (index : Nat) :
    (node.clearWhere p).input index = if p index then .unbound else node.input index := by
  unfold Node.input Node.clearWhere
  rw [List.getElem?_mapIdx]
  cases node.inputs[index]? with
  | none => simp
  | some slot => rfl

/-- Clearing an input that is not there changes nothing. -/
theorem node?_run_clearInput (graph : Graph α) (key : NodeKey) (index : Nat) (other : NodeKey) :
    ((Command.clearInput key index).run graph).node? other =
      if other = key then (graph.node? other).map (·.bind index .unbound) else graph.node? other := by
  cases hnode : graph.node? key with
  | none =>
    have hrun : (Command.clearInput key index).run graph = graph := by
      simp [Command.run, Graph.clearInput, checkInput, hnode, bind, Except.bind, orKeep]
    rw [hrun]
    by_cases heq : other = key
    · rw [if_pos heq, heq, hnode, Option.map_none]
    · rw [if_neg heq]
  | some node =>
    by_cases hindex : index < node.inputs.length
    · have hrun : (Command.clearInput key index).run graph = graph.bindSlot key index .unbound := by
        rw [Command.run, Graph.clearInput, checkInput_of_lt hnode hindex]
        rfl
      rw [hrun, node?_bindSlot]
    · have hrun : (Command.clearInput key index).run graph = graph := by
        simp [Command.run, Graph.clearInput, checkInput, hnode, hindex, bind, Except.bind, orKeep]
      rw [hrun]
      by_cases heq : other = key
      · have hbind : node.bind index .unbound = node := by
          rw [Node.bind, List.set_eq_of_length_le (Nat.le_of_not_lt hindex)]
        rw [if_pos heq, heq, hnode, Option.map_some, hbind]
      · rw [if_neg heq]

omit [Scalar α] in
/-- An input that is cleared is one more that is bound to nothing. -/
theorem clearWhere_bind (node : Node α) (index : Nat) (p : Nat → Bool) :
    (node.bind index .unbound).clearWhere p = node.clearWhere fun place => place = index || p place := by
  rw [Node.clearWhere, Node.clearWhere, Node.bind]
  congr 1
  refine List.ext_getElem? fun place => ?_
  rw [List.getElem?_mapIdx, List.getElem?_mapIdx, List.getElem?_set]
  by_cases heq : index = place
  · subst heq
    by_cases hplace : index < node.inputs.length
    · simp [hplace]
    · simp [hplace]
  · simp [heq, Ne.symm heq]

theorem node?_clearInputs (graph : Graph α) (inputs : List (NodeKey × Nat)) (key : NodeKey) :
    (graph.clearInputs inputs).node? key =
      (graph.node? key).map (·.clearWhere fun index => (key, index) ∈ inputs) := by
  induction inputs generalizing graph with
  | nil =>
    have hid : ∀ node : Node α, node.clearWhere (fun _ => false) = node := by
      intro node
      rw [Node.clearWhere]
      congr 1
      exact List.ext_getElem? fun place => by simp
    simp only [Graph.clearInputs, List.map_nil, List.foldl_nil, List.not_mem_nil, decide_false, hid, Option.map_id_fun',
      id_eq]
  | cons input inputs ih =>
    obtain ⟨other, place⟩ := input
    have hnext := ih ((Command.clearInput other place).run graph)
    rw [node?_run_clearInput] at hnext
    refine hnext.trans ?_
    by_cases heq : key = other
    · subst heq
      rw [if_pos rfl, Option.map_map]
      congr 1
      funext node
      rw [Function.comp_apply, clearWhere_bind]
      simp
    · rw [if_neg heq]
      simp [heq]

/-- Clearing inputs changes nothing but nodes. -/
theorem clearInputs_eq {next : Graph α} (h : next = { graph with nodes := next.nodes })
    (inputs : List (NodeKey × Nat)) :
    next.clearInputs inputs = { graph with nodes := (next.clearInputs inputs).nodes } := by
  induction inputs generalizing next with
  | nil => exact h
  | cons input inputs ih =>
    refine ih (orKeep_induction (p := fun last => last = { graph with nodes := last.nodes }) h fun last hlast => ?_)
    obtain ⟨-, rfl⟩ := clearInput_eq_ok hlast
    rw [h]
    rfl

/-- The inputs that are cleared are those that are mistyped. -/
theorem exists_node_clearMistyped {key : NodeKey} {node : Node α} (hnode : graph.node? key = some node) :
    ∃ node', graph.clearMistyped.node? key = some node' ∧ node'.memory = node.memory ∧
      ∀ index expected, node.kind.inputs[index]? = some expected →
        node'.input index = if graph.mistyped expected (node.input index) then .unbound else node.input index := by
  have hcleared := node?_clearInputs graph graph.mistypedInputs key
  rw [hnode, Option.map_some] at hcleared
  refine ⟨_, hcleared, rfl, fun index expected hexpected => ?_⟩
  have hiff : (key, index) ∈ graph.mistypedInputs ↔ graph.mistyped expected (node.input index) := by
    rw [mem_mistypedInputs_iff]
    constructor
    · rintro ⟨old, type, hold, htype, hmistyped⟩
      obtain rfl := Option.some.inj (hnode.symm.trans hold)
      obtain rfl := Option.some.inj (hexpected.symm.trans htype)
      exact hmistyped
    · exact fun hmistyped => ⟨node, expected, hnode, hexpected, hmistyped⟩
  rw [input_clearWhere]
  simp only [hiff, Bool.decide_eq_true]

/-- Clearing what is mistyped leaves a pruned graph. -/
theorem pruned_clearMistyped (graph : Graph α) : Pruned graph graph.clearMistyped := by
  have hnodes := node?_clearInputs graph graph.mistypedInputs
  refine ⟨?_, ?_, ?_, ?_, ?_, fun key => ?_, fun key node node' hnode hnode' index expected hexpected => ?_⟩
  · rw [clearMistyped, clearInputs_eq rfl]
  · rw [clearMistyped, clearInputs_eq rfl]
  · rw [clearMistyped, clearInputs_eq rfl]
  · rw [clearMistyped, clearInputs_eq rfl]
  · rw [clearMistyped, clearInputs_eq rfl]
  · rw [clearMistyped, hnodes, Option.map_map]
    rfl
  · obtain ⟨cleared, hcleared, -, hinput⟩ := exists_node_clearMistyped hnode
    obtain rfl := Option.some.inj (hcleared.symm.trans hnode')
    rw [hinput index expected hexpected]
    by_cases hmistyped : graph.mistyped expected (node.input index)
    · exact .inr ⟨if_pos hmistyped, blind_of_mistyped hmistyped⟩
    · exact .inl (if_neg hmistyped)

/-- Whoever plays a graph finds no difference if what is mistyped, and nothing else, is bound to nothing: all calls have
    the same answers, and all nodes the same results, playback and numbers of computations, after each of them. -/
theorem Reached.records_clearMistyped (h : graph.Reached) :
    (∀ key node, graph.node? key = some node → ∃ node', graph.clearMistyped.node? key = some node' ∧
      node'.memory = node.memory ∧ ∀ index expected, node.kind.inputs[index]? = some expected →
        node'.input index = if graph.mistyped expected (node.input index) then .unbound else node.input index) ∧
    ∀ calls : List (Call α), (∀ call ∈ calls, call.Plays) → graph.clearMistyped.records calls = graph.records calls :=
  ⟨fun _ _ hnode => exists_node_clearMistyped hnode,
    fun _ hplays => graph.pruned_clearMistyped.records h.wellFormed (h.clearInputs _).wellFormed hplays⟩

/-- A clip sampler whose clip is a node and whose speed is a truth value, and a blend of it with that truth value. -/
def crossed : Graph Binary32 :=
  [.addNode .clipSampler, .addNode .blend, .setOutput (some ⟨1⟩), .declareVariable "speed" (.bool true),
    .addNode (.float .cos), .bindNamed ⟨0⟩ 1 "speed", .bindNamed ⟨1⟩ 1 "speed", .bindNode ⟨1⟩ 0 ⟨0⟩,
    .bindNode ⟨0⟩ 0 ⟨2⟩].foldl Command.run (.ofSkeleton oneBone .default)

theorem crossed_eq :
    crossed = (([.addNode .clipSampler, .addNode .blend, .setOutput (some ⟨1⟩), .declareVariable "speed" (.bool true),
      .addNode (.float .cos), .bindNamed ⟨0⟩ 1 "speed", .bindNamed ⟨1⟩ 1 "speed"].foldl Command.run
        (.ofSkeleton oneBone .default)).bindSlot ⟨1⟩ 0 (.node ⟨0⟩)).bindSlot ⟨0⟩ 0 (.node ⟨2⟩) := by
  refine Eq.trans (congrArg (Command.run · (.bindNode ⟨0⟩ 0 ⟨2⟩)) ?_)
    (run_bindNode_of_children_eq_nil rfl rfl rfl (by decide))
  exact run_bindNode_of_children_eq_nil rfl rfl rfl (by decide)

theorem records_clearMistyped_crossed :
    crossed.mistypedInputs = [(⟨0⟩, 0), (⟨0⟩, 1), (⟨1⟩, 1)] ∧
      crossed.clearMistyped.records [.setVariable "speed" (.bool false), .update 1, .evaluate 0] =
        crossed.records [.setVariable "speed" (.bool false), .update 1, .evaluate 0] := by
  have hreached : crossed.Reached := (ReachedBy.new _ _).foldl (by simp)
  have hmistyped : crossed.mistypedInputs = [(⟨0⟩, 0), (⟨0⟩, 1), (⟨1⟩, 1)] := by
    rw [crossed_eq]
    rfl
  refine ⟨hmistyped, hreached.records_clearMistyped.2 _ ?_⟩
  simp [Call.Plays]

end Graph
end Armature
