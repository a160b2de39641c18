import Armature.Proofs.Command
import Armature.Proofs.Copy
import Armature.Proofs.Edit
import Armature.Proofs.Palette
import Armature.Proofs.Traversal

/-!
# Well-formed graphs

What holds of every graph that commands lead to (`Graph.WellFormed`): bindings are acyclic and lead to nodes that are
there, every node has the inputs of its kind and remembers what its kind computes, and no stamp lies in the future.
Each command keeps this (`Graph.WellFormed.run`), an evaluation because it computes nodes and leaves their inputs alone,
a clone because its bindings are those of the graph.
-/

namespace Armature

variable {α : Type}

/-- A node of a kind can remember a state. -/
def NodeState.Fits (kind : NodeKind) : NodeState α → Prop
  | .sampler _ _ => kind = .clipSampler
  | .pose _ => kind.resultType = .pose ∧ kind ≠ .clipSampler
  | .bool _ => kind.resultType = .bool
  | .float _ => kind.resultType = .float

/-- A key of a variable means something to a table: the variable is there or, if variables may have been removed, has
    been there. -/
def VariableTable.Knows (cleared : Prop) (table : VariableTable α) (key : VariableKey) : Prop :=
  table.contains key ∨ (cleared ∧ key.id < table.entries.issued)

/-- A table has the keys that another one has, and hands out none again that the other one has handed out. -/
structure VariableTable.Grows (table next : VariableTable α) : Prop where
  contains : ∀ key, table.contains key → next.contains key
  issued : table.entries.issued ≤ next.entries.issued

namespace Graph

structure NodeFits (cleared : Prop) (graph : Graph α) (node : Node α) : Prop where
  arity : node.inputs.length = node.kind.arity
  state : node.state.Fits node.kind
  stamp : node.lastFrame ≤ graph.frame
  children : ∀ child, Slot.node child ∈ node.inputs → graph.nodes.contains child
  variableKeys : ∀ key, Slot.variable key ∈ node.inputs → graph.table.Knows cleared key

/-- What holds of a graph that commands lead to; `cleared` says whether these may remove variables that inputs are
    bound to. -/
structure WellFormed (cleared : Prop) (graph : Graph α) : Prop where
  acyclic : graph.nodes.Acyclic
  fits : ∀ key node, graph.node? key = some node → graph.NodeFits cleared node
  output : ∀ key, graph.output = some key → graph.nodes.contains key
  table : graph.table.Reached

end Graph

namespace VariableTable

theorem lt_issued_of_contains {table : VariableTable α} {key : VariableKey} (h : table.contains key) :
    key.id < table.entries.issued := by
  by_contra hlater
  have hnone := table.entries.entries_issued key.id (Nat.le_of_not_lt hlater)
  simp [contains, Arena.contains, Arena.get?, hnone] at h

theorem contains_of_get? {table : VariableTable α} {key : VariableKey} {v : Variable α}
    (h : table.get? key = some v) : table.contains key := by
  unfold get? at h
  simp [contains, Arena.contains, h]

theorem Knows.grow {cleared : Prop} {table next : VariableTable α} {key : VariableKey}
    (h : table.Knows cleared key) (hgrows : table.Grows next) : next.Knows cleared key := by
  rcases h with h | ⟨hcleared, h⟩
  · exact .inl (hgrows.contains key h)
  · exact .inr ⟨hcleared, Nat.lt_of_lt_of_le h hgrows.issued⟩

theorem Grows.refl (table : VariableTable α) : table.Grows table :=
  ⟨fun _ h => h, Nat.le_refl _⟩

theorem Grows.trans {table next last : VariableTable α} (h : table.Grows next) (hnext : next.Grows last) :
    table.Grows last :=
  ⟨fun key hkey => hnext.contains key (h.contains key hkey), Nat.le_trans h.issued hnext.issued⟩

theorem grows_insert (table : VariableTable α) (v : Variable α) : table.Grows (table.insert v) where
  contains key h := by
    obtain ⟨w, hw⟩ := Option.isSome_iff_exists.1 h
    by_cases heq : key = table.nextKey
    · exact contains_of_get? ((get?_insert _ _ _).trans (if_pos heq))
    · exact contains_of_get? ((get?_insert _ _ _).trans ((if_neg heq).trans hw))
  issued := Nat.le_succ _

theorem grows_setKey {table next : VariableTable α} {key : VariableKey} {value : Value α}
    (h : table.setKey key value = .ok next) : table.Grows next where
  contains other hother := by
    obtain ⟨w, hw⟩ := Option.isSome_iff_exists.1 hother
    have hw : table.get? other = some w := hw
    have hnext := get?_setKey h other
    rw [hw] at hnext
    by_cases heq : other = key
    · exact contains_of_get? (hnext.trans (if_pos heq))
    · exact contains_of_get? (hnext.trans (if_neg heq))
  issued := by
    obtain ⟨v, -, -, rfl⟩ := setKey_eq_ok h
    exact Nat.le_refl _

end VariableTable

namespace Graph

variable {cleared : Prop} {graph : Graph α}

theorem WellFormed.closed (h : graph.WellFormed cleared) : graph.nodes.Closed := by
  rintro key child ⟨node, hnode, hchild⟩
  exact (h.fits key node hnode).children child hchild

/-- The key of a variable that an input is bound to has been handed out. -/
theorem NodeFits.issued {node : Node α} (h : graph.NodeFits cleared node) {key : VariableKey}
    (hmem : Slot.variable key ∈ node.inputs) : key.id < graph.table.entries.issued := by
  rcases h.variableKeys key hmem with hlive | ⟨-, hissued⟩
  · exact VariableTable.lt_issued_of_contains hlive
  · exact hissued

theorem NodeFits.mono {next : Graph α} {node : Node α} (h : graph.NodeFits cleared node)
    (hnodes : ∀ key, graph.nodes.contains key → next.nodes.contains key)
    (htable : graph.table.Grows next.table) (hframe : graph.frame ≤ next.frame) :
    next.NodeFits cleared node where
  arity := h.arity
  state := h.state
  stamp := Nat.le_trans h.stamp hframe
  children child hchild := hnodes child (h.children child hchild)
  variableKeys key hkey := (h.variableKeys key hkey).grow htable

/-! ## Edits -/

theorem wellFormed_ofSkeleton (cleared : Prop) (skeleton : Asset (Skeleton α)) (settings : Settings α) :
    (ofSkeleton skeleton settings).WellFormed cleared where
  acyclic key hcycle := by
    obtain ⟨child, ⟨node, hnode, -⟩, -⟩ := Relation.TransGen.head'_iff.1 hcycle
    simp [ofSkeleton] at hnode
  fits key node hnode := by simp [node?, ofSkeleton] at hnode
  output key hkey := by simp [ofSkeleton] at hkey
  table := .empty

/-- A graph stays well-formed when each of its nodes is changed, but none is bound to more than before. -/
theorem WellFormed.changeNodes (h : graph.WellFormed cleared) {nodes : Nodes α} {frame : Nat}
    (hcontains : ∀ key, graph.nodes.contains key → nodes.contains key)
    (hbinds : ∀ key child, nodes.Binds key child → graph.nodes.Binds key child)
    (hfits : ∀ key node, nodes.get? key = some node → Graph.NodeFits cleared { graph with nodes, frame } node) :
    Graph.WellFormed cleared { graph with nodes, frame } where
  acyclic := h.acyclic.mono hbinds
  fits := hfits
  output key hkey := hcontains key (h.output key hkey)
  table := h.table

theorem WellFormed.withTable (h : graph.WellFormed cleared) {table : VariableTable α} (htable : table.Reached)
    (hgrows : graph.table.Grows table) : Graph.WellFormed cleared { graph with table } where
  acyclic := h.acyclic
  fits key node hnode := (h.fits key node hnode).mono (fun _ h => h) hgrows (Nat.le_refl _)
  output := h.output
  table := htable

theorem WellFormed.addNode [Scalar α] (h : graph.WellFormed cleared) (kind : NodeKind) :
    (graph.addNode kind).2.WellFormed cleared := by
  have hcontains : ∀ key, graph.nodes.contains key → (graph.addNode kind).2.nodes.contains key := by
    intro key hkey
    obtain ⟨node, hnode⟩ := Nodes.get?_of_contains hkey
    rw [Arena.contains, Graph.addNode, Arena.get?_insert, hnode]
    split <;> rfl
  refine h.changeNodes hcontains ?_ ?_
  · rintro key child ⟨node, hnode, hchild⟩
    rw [Arena.get?_insert] at hnode
    split at hnode
    · obtain rfl := Option.some.inj hnode
      simp [Node.ofKind] at hchild
    · exact ⟨node, hnode, hchild⟩
  · intro key node hnode
    rw [Arena.get?_insert] at hnode
    split at hnode
    · obtain rfl := Option.some.inj hnode
      refine ⟨Node.length_inputs_ofKind kind, ?_, Nat.zero_le _, by simp [Node.ofKind], by simp [Node.ofKind]⟩
      cases kind <;> simp [Node.ofKind, NodeState.Fits, NodeKind.resultType]
    · exact (h.fits key node hnode).mono hcontains (.refl _) (Nat.le_refl _)

theorem WellFormed.setOutput (h : graph.WellFormed cleared) {output : Option NodeKey} {next : Graph α}
    (hnext : graph.setOutput output = .ok next) : next.WellFormed cleared := by
  obtain ⟨hlive, rfl⟩ := setOutput_eq_ok hnext
  exact ⟨h.acyclic, fun key node hnode => (h.fits key node hnode).mono (fun _ h => h) (.refl _) (Nat.le_refl _),
    hlive, h.table⟩

theorem contains_modify {nodes : Nodes α} {key other : NodeKey} {f : Node α → Node α}
    (h : nodes.contains other) : Arena.contains (nodes.modify key f) other := by
  obtain ⟨node, hnode⟩ := Nodes.get?_of_contains h
  rw [Arena.contains, Arena.get?_modify, hnode]
  split <;> rfl

/-- A graph stays well-formed when an input is bound to a node that does not lead back, or to a variable. -/
theorem WellFormed.bindSlot (h : graph.WellFormed cleared) {key : NodeKey} {index : Nat} {slot : Slot}
    (hchild : ∀ child, slot = .node child → graph.nodes.contains child ∧
      ¬ Relation.ReflTransGen graph.nodes.Binds child key)
    (hvariable : ∀ variableKey, slot = .variable variableKey → graph.table.Knows cleared variableKey) :
    (graph.bindSlot key index slot).WellFormed cleared where
  acyclic := h.acyclic.bind fun child heq => (hchild child heq).2
  output other hother := contains_modify (h.output other hother)
  table := h.table
  fits other node hnode := by
    rw [node?, Graph.bindSlot, Arena.get?_modify] at hnode
    split at hnode
    · obtain ⟨old, hold, rfl⟩ := Option.map_eq_some_iff.1 hnode
      have hfits := h.fits other old hold
      refine ⟨by rw [Node.length_inputs_bind]; exact hfits.arity, hfits.state, hfits.stamp, ?_, ?_⟩
      · intro child hmem
        refine contains_modify ?_
        rcases List.mem_or_eq_of_mem_set hmem with hmem | heq
        · exact hfits.children child hmem
        · exact (hchild child heq.symm).1
      · intro variableKey hmem
        rcases List.mem_or_eq_of_mem_set hmem with hmem | heq
        · exact hfits.variableKeys variableKey hmem
        · exact hvariable variableKey heq.symm
    · exact (h.fits other node hnode).mono (fun _ hlive => contains_modify hlive) (.refl _) (Nat.le_refl _)

theorem WellFormed.bindNode (h : graph.WellFormed cleared) {key child : NodeKey} {index : Nat} {next : Graph α}
    (hnext : graph.bindNode key index child = .ok next) : next.WellFormed cleared := by
  obtain ⟨hlive, -, hback, rfl⟩ := bindNode_eq_ok hnext
  refine h.bindSlot ?_ (fun _ heq => by cases heq)
  intro other heq
  obtain rfl := Slot.node.inj heq
  refine ⟨hlive, fun hreach => ?_⟩
  rw [(dependsOn_iff h.closed _ key).2 hreach] at hback
  cases hback

theorem WellFormed.bindVariable (h : graph.WellFormed cleared) {key : NodeKey} {index : Nat}
    {variableKey : VariableKey} {next : Graph α} (hnext : graph.bindVariable key index variableKey = .ok next) :
    next.WellFormed cleared := by
  obtain ⟨hlive, -, rfl⟩ := bindVariable_eq_ok hnext
  refine h.bindSlot (fun _ heq => by cases heq) ?_
  intro other heq
  obtain rfl := Slot.variable.inj heq
  exact .inl hlive

theorem WellFormed.bindNamed (h : graph.WellFormed cleared) {key : NodeKey} {index : Nat} {name : String}
    {next : Graph α} (hnext : graph.bindNamed key index name = .ok next) : next.WellFormed cleared := by
  obtain ⟨variableKey, -, hnext⟩ := bindNamed_eq_ok hnext
  exact h.bindVariable hnext

theorem WellFormed.addLocalVariable (h : graph.WellFormed cleared) (value : Value α) :
    (graph.addLocalVariable value).2.WellFormed cleared :=
  h.withTable (h.table.addLocal value) (VariableTable.grows_insert _ _)

theorem WellFormed.bindValue (h : graph.WellFormed cleared) {key : NodeKey} {index : Nat} {value : Value α}
    {variableKey : VariableKey} {next : Graph α}
    (hnext : graph.bindValue key index value = .ok (variableKey, next)) : next.WellFormed cleared := by
  obtain ⟨-, -, rfl⟩ := bindValue_eq_ok hnext
  refine (h.addLocalVariable value).bindSlot (fun _ heq => by cases heq) ?_
  intro other heq
  obtain rfl := Slot.variable.inj heq
  refine .inl (VariableTable.contains_of_get? (v := ⟨none, value⟩) ?_)
  exact (VariableTable.get?_insert _ _ _).trans (if_pos rfl)

theorem WellFormed.clearInput (h : graph.WellFormed cleared) {key : NodeKey} {index : Nat} {next : Graph α}
    (hnext : graph.clearInput key index = .ok next) : next.WellFormed cleared := by
  obtain ⟨-, rfl⟩ := clearInput_eq_ok hnext
  exact h.bindSlot (fun _ heq => by cases heq) (fun _ heq => by cases heq)

theorem WellFormed.modify (h : graph.WellFormed cleared) (key : NodeKey) {f : Node α → Node α}
    (hkind : ∀ node, (f node).kind = node.kind) (hlength : ∀ node, (f node).inputs.length = node.inputs.length)
    (hslot : ∀ node, ∀ slot ∈ (f node).inputs, slot ∈ node.inputs ∨ slot = .unbound)
    (hstate : ∀ node, node.state.Fits node.kind → (f node).state.Fits node.kind)
    (hstamp : ∀ node, (f node).lastFrame = node.lastFrame) :
    Graph.WellFormed cleared { graph with nodes := graph.nodes.modify key f } := by
  refine h.changeNodes (fun _ hlive => contains_modify hlive) ?_ ?_
  · rintro parent child ⟨node, hnode, hmem⟩
    rw [Arena.get?_modify] at hnode
    split at hnode
    · obtain ⟨old, hold, rfl⟩ := Option.map_eq_some_iff.1 hnode
      rcases hslot old _ hmem with hmem | heq
      · exact ⟨old, hold, hmem⟩
      · cases heq
    · exact ⟨node, hnode, hmem⟩
  · intro other node hnode
    rw [Arena.get?_modify] at hnode
    split at hnode
    · obtain ⟨old, hold, rfl⟩ := Option.map_eq_some_iff.1 hnode
      have hfits := h.fits other old hold
      refine ⟨?_, ?_, ?_, ?_, ?_⟩
      · rw [hlength, hkind]
        exact hfits.arity
      · rw [hkind]
        exact hstate old hfits.state
      · rw [hstamp]
        exact hfits.stamp
      · intro child hmem
        rcases hslot old _ hmem with hmem | heq
        · exact contains_modify (hfits.children child hmem)
        · cases heq
      · intro variableKey hmem
        rcases hslot old _ hmem with hmem | heq
        · exact hfits.variableKeys variableKey hmem
        · cases heq
    · exact (h.fits other node hnode).mono (fun _ hlive => contains_modify hlive) (.refl _) (Nat.le_refl _)

theorem WellFormed.resetInputs (h : graph.WellFormed cleared) {key : NodeKey} {next : Graph α}
    (hnext : graph.resetInputs key = .ok next) : next.WellFormed cleared := by
  unfold Graph.resetInputs at hnext
  split at hnext
  · obtain rfl := Except.ok.inj hnext
    refine h.modify key (fun _ => rfl) (fun _ => by simp) ?_ (fun _ hstate => hstate) (fun _ => rfl)
    intro node slot hslot
    obtain ⟨_, -, rfl⟩ := List.mem_map.1 hslot
    exact .inr rfl
  · cases hnext

theorem WellFormed.setTime (h : graph.WellFormed cleared) (key : NodeKey) (time : α) :
    (graph.setTime key time).WellFormed cleared := by
  have hinputs : ∀ node : Node α, (node.setTime time).inputs = node.inputs := by
    intro node
    unfold Node.setTime
    split <;> rfl
  refine h.modify key ?_ (fun node => by rw [hinputs]) (fun node slot hslot => ?_) ?_ ?_
  · intro node
    unfold Node.setTime
    split <;> rfl
  · rw [hinputs] at hslot
    exact .inl hslot
  · intro node hstate
    unfold Node.setTime
    split
    · next hsampler =>
      rw [hsampler] at hstate
      exact hstate
    · exact hstate
  · intro node
    unfold Node.setTime
    split <;> rfl

theorem WellFormed.declareVariable (h : graph.WellFormed cleared) {name : String} {value : Value α}
    {variableKey : VariableKey} {next : Graph α}
    (hnext : graph.declareVariable name value = .ok (variableKey, next)) : next.WellFormed cleared := by
  obtain ⟨table, hdeclare, rfl⟩ := declareVariable_eq_ok hnext
  refine h.withTable (h.table.declare hdeclare) ?_
  obtain ⟨-, -, rfl⟩ := VariableTable.declare_eq_ok hdeclare
  exact VariableTable.grows_insert _ _

theorem WellFormed.setVariableKey (h : graph.WellFormed cleared) {key : VariableKey} {value : Value α}
    {next : Graph α} (hnext : graph.setVariableKey key value = .ok next) : next.WellFormed cleared := by
  obtain ⟨table, hset, rfl⟩ := setVariableKey_eq_ok hnext
  exact h.withTable (h.table.setKey hset) (VariableTable.grows_setKey hset)

theorem WellFormed.setVariable (h : graph.WellFormed cleared) {name : String} {value : Value α}
    {next : Graph α} (hnext : graph.setVariable name value = .ok next) : next.WellFormed cleared := by
  obtain ⟨table, hset, rfl⟩ := setVariable_eq_ok hnext
  obtain ⟨key, -, hsetKey⟩ := VariableTable.set_eq_ok hset
  exact h.withTable (h.table.set hset) (VariableTable.grows_setKey hsetKey)

/-- Inputs that were bound to variables are bound to nothing that is there once all variables are removed. -/
theorem WellFormed.clearVariables (h : graph.WellFormed True) : graph.clearVariables.WellFormed True where
  acyclic := h.acyclic
  output := h.output
  table := h.table.clear
  fits key node hnode := by
    have hfits := h.fits key node hnode
    exact ⟨hfits.arity, hfits.state, hfits.stamp, hfits.children, fun _ hmem => .inr ⟨trivial, hfits.issued hmem⟩⟩

theorem WellFormed.reset (h : graph.WellFormed cleared) : graph.reset.WellFormed cleared where
  acyclic key hcycle := by
    obtain ⟨child, ⟨node, hnode, -⟩, -⟩ := Relation.TransGen.head'_iff.1 hcycle
    simp [Graph.reset] at hnode
  fits key node hnode := by simp [node?, Graph.reset] at hnode
  output key hkey := by simp [Graph.reset] at hkey
  table := h.table.clear

/-! ## Evaluations -/

theorem fits_stateAfter [Scalar α] (frame : Frame α) (results : Frame.Results α) (node : Node α) :
    (frame.stateAfter results node).Fits node.kind := by
  cases hkind : node.kind with
  | bool op => cases op <;> simp [Frame.stateAfter, Frame.operation, hkind, NodeState.Fits, NodeKind.resultType]
  | _ => simp [Frame.stateAfter, Frame.operation, hkind, NodeState.Fits, NodeKind.resultType]

/-- What a frame makes of a graph is well-formed. -/
theorem WellFormed.progress [Scalar α] (h : graph.WellFormed cleared) {timestep : α} {results : Frame.Results α}
    {done : Set NodeKey} {nodes : Nodes α}
    (hprogress : (graph.nextFrame timestep).Progress graph.nodes results done nodes) :
    Graph.WellFormed cleared { graph with nodes, frame := graph.frame + 1 } := by
  have hinputs : ∀ key, (nodes.get? key).map (·.inputs) = (graph.nodes.get? key).map (·.inputs) := by
    intro key
    by_cases hkey : key ∈ done
    · rw [hprogress.finished key hkey, Option.map_map]
      rfl
    · rw [hprogress.untouched key hkey]
  have hcontains : ∀ key, graph.nodes.contains key → nodes.contains key := by
    intro key hkey
    have hinputs := congrArg Option.isSome (hinputs key)
    rw [Option.isSome_map, Option.isSome_map] at hinputs
    exact hinputs.trans hkey
  refine h.changeNodes hcontains (fun key child hbinds => (Nodes.binds_congr hinputs key child).1 hbinds) ?_
  intro key node hnode
  by_cases hkey : key ∈ done
  · rw [hprogress.finished key hkey] at hnode
    obtain ⟨old, hold, rfl⟩ := Option.map_eq_some_iff.1 hnode
    have hfits := h.fits key old hold
    refine ⟨hfits.arity, fits_stateAfter _ _ _, Nat.le_refl _, ?_, hfits.variableKeys⟩
    exact fun child hmem => hcontains child (hfits.children child hmem)
  · rw [hprogress.untouched key hkey] at hnode
    exact (h.fits key node hnode).mono hcontains (.refl _) (Nat.le_succ _)

/-- A well-formed graph can be evaluated: its next frame computes what the output demands. -/
theorem WellFormed.evaluate?_eq_some [Scalar α] (h : graph.WellFormed cleared) (timestep : α) :
    ∃ nodes : Nodes α,
      (graph.nextFrame timestep).Progress graph.nodes (graph.nextMeaning h.acyclic timestep)
        (graph.nextDemand h.acyclic timestep) nodes ∧
      graph.evaluate? timestep = some ((graph.output.bind nodes.get?).map (·.pose),
        { graph with nodes, frame := graph.frame + 1 }) :=
  Graph.evaluate?_eq_some graph h.acyclic (fun key node hnode => (h.fits key node hnode).stamp) timestep

theorem WellFormed.evaluate [Scalar α] (h : graph.WellFormed cleared) (timestep : α) :
    (graph.evaluate timestep).2.WellFormed cleared := by
  obtain ⟨nodes, hprogress, heval⟩ := h.evaluate?_eq_some timestep
  rw [Graph.evaluate, heval]
  exact h.progress hprogress

/-! ## Clones -/

/-- A well-formed graph can be cloned on every table that operations lead to. -/
theorem WellFormed.cloneWithVariables?_eq_some (h : graph.WellFormed cleared) {start : VariableTable α}
    (hstart : start.Reached) :
    ∃ cloner, graph.cloneWithVariables? start = some (graph.clonedBy cloner) ∧ graph.CopiedBy start cloner :=
  Graph.cloneWithVariables?_eq_some h.acyclic h.output h.table.exact hstart

/-- What a cloner has copied from a well-formed graph is well-formed, and its inputs are bound to variables that are
    there. -/
theorem WellFormed.clonedBy (h : graph.WellFormed cleared) (cleared' : Prop) {start : VariableTable α}
    (hstart : start.Reached) {cloner : Cloner α} (hcopied : graph.CopiedBy start cloner) :
    (graph.clonedBy cloner).WellFormed cleared' where
  acyclic := hcopied.faithful.acyclic h.acyclic
  table := hcopied.faithful.reached
  output copy hcopy := by
    obtain ⟨key, -, hcopy⟩ := Option.bind_eq_some_iff.1 hcopy
    obtain ⟨_, _, -, hget, -⟩ := hcopied.faithful.copied_node key copy hcopy
    exact Nodes.contains_of_get? hget
  fits copy node hnode := by
    obtain ⟨key, hcopy⟩ := hcopied.faithful.copies copy (Nodes.contains_of_get? hnode)
    obtain ⟨source, inputs, hsource, hget, hinputs⟩ := hcopied.faithful.copied_node key copy hcopy
    obtain rfl := Option.some.inj (hget.symm.trans hnode)
    have hfits := h.fits key source hsource
    refine ⟨hinputs.length_eq.symm.trans hfits.arity, hfits.state, hfits.stamp, ?_, ?_⟩
    · intro child hmem
      obtain ⟨slot, -, hslot⟩ := exists_of_mem_right hinputs hmem
      cases hslot with
      | toNode hchild =>
        obtain ⟨_, _, -, hget, -⟩ := hcopied.faithful.copied_node _ child hchild
        exact Nodes.contains_of_get? hget
    · intro variableKey hmem
      obtain ⟨slot, -, hslot⟩ := exists_of_mem_right hinputs hmem
      cases hslot with
      | toVariable hvariable =>
        obtain ⟨_, w, -, hw, -⟩ := hcopied.faithful.get?_variableKey? hstart hvariable
        exact .inl (VariableTable.contains_of_get? hw)

theorem WellFormed.cloneWithVariables (h : graph.WellFormed cleared) {start : VariableTable α}
    (hstart : start.Reached) : (graph.cloneWithVariables start).WellFormed cleared := by
  obtain ⟨cloner, hclone, hcopied⟩ := h.cloneWithVariables?_eq_some hstart
  rw [Graph.cloneWithVariables, hclone]
  exact h.clonedBy cleared hstart hcopied

theorem WellFormed.clone?_eq (h : graph.WellFormed cleared) :
    graph.clone? = graph.cloneWithVariables? graph.table.copyNamed := by
  rw [Graph.clone?, h.table.exact.copyNamed?_eq_some.1]
  rfl

theorem WellFormed.clone_eq (h : graph.WellFormed cleared) :
    graph.clone = graph.cloneWithVariables graph.table.copyNamed := by
  rw [Graph.clone, Graph.cloneWithVariables, h.clone?_eq]

theorem WellFormed.clone (h : graph.WellFormed cleared) : graph.clone.WellFormed cleared := by
  rw [h.clone_eq]
  exact h.cloneWithVariables h.table.copyNamed

/-! ## Commands -/

variable [Scalar α]

/-- Every command keeps a graph well-formed, but for the removal of variables: that may leave inputs bound to nothing
    that is there. -/
theorem WellFormed.run (h : graph.WellFormed cleared) (command : Command α)
    (hcommand : command = .clearVariables → cleared) : (command.run graph).WellFormed cleared := by
  cases command with
  | addNode kind => exact h.addNode kind
  | setOutput output => exact orKeep_induction h fun _ hnext => h.setOutput hnext
  | bindNode key index child => exact orKeep_induction h fun _ hnext => h.bindNode hnext
  | bindVariable key index variableKey => exact orKeep_induction h fun _ hnext => h.bindVariable hnext
  | bindNamed key index name => exact orKeep_induction h fun _ hnext => h.bindNamed hnext
  | bindValue key index value =>
    refine orKeep_induction h fun next hnext => ?_
    obtain ⟨⟨variableKey, next⟩, hbind, rfl⟩ := map_eq_ok hnext
    exact h.bindValue hbind
  | clearInput key index => exact orKeep_induction h fun _ hnext => h.clearInput hnext
  | resetInputs key => exact orKeep_induction h fun _ hnext => h.resetInputs hnext
  | declareVariable name value =>
    refine orKeep_induction h fun next hnext => ?_
    obtain ⟨⟨variableKey, next⟩, hdeclare, rfl⟩ := map_eq_ok hnext
    exact h.declareVariable hdeclare
  | addLocalVariable value => exact h.addLocalVariable value
  | setVariable name value => exact orKeep_induction h fun _ hnext => h.setVariable hnext
  | setVariableKey key value => exact orKeep_induction h fun _ hnext => h.setVariableKey hnext
  | clearVariables =>
    have hcleared : cleared = True := eq_true (hcommand rfl)
    subst hcleared
    exact h.clearVariables
  | setTime key time => exact h.setTime key time
  | reset => exact h.reset
  | evaluate timestep => exact h.evaluate timestep
  | clone => exact h.clone
  | cloneWithVariables table htable => exact h.cloneWithVariables htable

/-- Every graph that commands lead to is well-formed. -/
theorem ReachedBy.wellFormed {allowed : Command α → Prop} (h : graph.ReachedBy allowed)
    (hallowed : allowed .clearVariables → cleared) : graph.WellFormed cleared := by
  induction h with
  | new skeleton settings => exact wellFormed_ofSkeleton cleared skeleton settings
  | step _ hcommand ih => exact ih.run _ fun heq => hallowed (heq ▸ hcommand)

theorem Reached.wellFormed (h : graph.Reached) : graph.WellFormed True :=
  ReachedBy.wellFormed h fun _ => trivial

omit [Scalar α] in
/-- A node that does not compute poses has none. -/
theorem NodeFits.pose_eq_empty {node : Node α} (h : graph.NodeFits cleared node)
    (hkind : node.kind.resultType ≠ .pose) : node.pose = ∅ := by
  have hstate := h.state
  unfold Node.pose
  cases hnode : node.state with
  | sampler playback pose =>
    rw [hnode] at hstate
    exact absurd (congrArg NodeKind.resultType hstate) hkind
  | pose pose =>
    rw [hnode] at hstate
    exact absurd hstate.1 hkind
  | _ => rfl

theorem WellFormed.evaluate?_eq (h : graph.WellFormed cleared) (timestep : α) :
    graph.evaluate? timestep = some (graph.evaluate timestep) := by
  obtain ⟨nodes, -, heval⟩ := h.evaluate?_eq_some timestep
  rw [Graph.evaluate, heval]
  rfl

omit [Scalar α] in
theorem WellFormed.cloneWithVariables?_eq (h : graph.WellFormed cleared) {start : VariableTable α}
    (hstart : start.Reached) :
    graph.cloneWithVariables? start = some (graph.cloneWithVariables start) := by
  obtain ⟨cloner, hclone, -⟩ := h.cloneWithVariables?_eq_some hstart
  rw [Graph.cloneWithVariables, hclone]
  rfl

/-- Graphs are well-formed whatever commands have led to them, successful or not, as long as none has removed variables
    under the inputs; and it is enough to be well-formed for an evaluation and for a clone to come to an end, using
    nothing that is not there. -/
theorem ReachedBy.wellFormed_total (h : graph.ReachedBy (· ≠ .clearVariables)) :
    (∀ key, ¬ Relation.TransGen graph.nodes.Binds key key) ∧
    (∀ key node, graph.node? key = some node →
      node.inputs.length = node.kind.arity ∧
      (∀ child, Slot.node child ∈ node.inputs → graph.nodes.contains child) ∧
      (∀ variableKey, Slot.variable variableKey ∈ node.inputs → graph.table.contains variableKey) ∧
      node.lastFrame ≤ graph.frame ∧
      (node.kind.resultType ≠ .pose → node.pose = ∅)) ∧
    (∀ key, graph.output = some key → graph.nodes.contains key) ∧
    (∀ timestep, graph.evaluate? timestep = some (graph.evaluate timestep)) ∧
    (∀ (pose : Pose α) (rootParent : Mat4 α) (name : String) (info : BoneInfo α),
      graph.skeleton.value.table[name]? = some info →
        info.index < (graph.skeleton.value.finalize pose rootParent).size) ∧
    graph.clone? = some graph.clone ∧
    (∀ table : VariableTable α, table.Reached →
      graph.cloneWithVariables? table = some (graph.cloneWithVariables table)) := by
  have hwell : graph.WellFormed False := h.wellFormed fun hne => hne rfl
  refine ⟨hwell.acyclic, ?_, hwell.output, hwell.evaluate?_eq, ?_, ?_, fun table htable =>
    hwell.cloneWithVariables?_eq htable⟩
  · intro key node hnode
    have hfits := hwell.fits key node hnode
    refine ⟨hfits.arity, hfits.children, ?_, hfits.stamp, hfits.pose_eq_empty⟩
    intro variableKey hmem
    rcases hfits.variableKeys variableKey hmem with hlive | ⟨hfalse, -⟩
    · exact hlive
    · exact hfalse.elim
  · intro pose rootParent name info hinfo
    rw [Skeleton.size_finalize]
    exact Skeleton.index_lt_paletteLength _ hinfo
  · have hclone := hwell.cloneWithVariables?_eq hwell.table.copyNamed
    rw [Graph.clone, hwell.clone?_eq, hclone]
    rfl

theorem wellFormed_total_diamond :
    diamond.evaluate? 1 = some (diamond.evaluate 1) ∧ diamond.clone? = some diamond.clone := by
  obtain ⟨-, -, -, heval, -, hclone, -⟩ := reachedBy_diamond.wellFormed_total
  exact ⟨heval 1, hclone⟩

end Graph
end Armature
