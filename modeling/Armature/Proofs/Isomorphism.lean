import Armature.Proofs.WellFormed

/-!
# Clones up to the choice of keys

What the clone of a graph on a table of variables is, said by two maps from old keys to new ones (`Graph.IsCopy`): its
nodes are images of the nodes that the output leads to, with inputs that are bound to images; its table is the one
that was given, and beyond it has the images of the variables that the copied nodes are bound to.
-/

namespace Armature.Graph

variable {α : Type}

/-- An input and its image: the input is bound to the image of what it was bound to, and is unbound if that was a
    variable that is not there any more. -/
inductive SlotImage (graph : Graph α) (nodeMap : NodeKey → Option NodeKey)
    (variableMap : VariableKey → Option VariableKey) : Slot → Slot → Prop
  | unbound : SlotImage graph nodeMap variableMap .unbound .unbound
  | toNode {child image : NodeKey} (h : nodeMap child = some image) :
      SlotImage graph nodeMap variableMap (.node child) (.node image)
  | toVariable {key image : VariableKey} (h : variableMap key = some image) :
      SlotImage graph nodeMap variableMap (.variable key) (.variable image)
  | gone {key : VariableKey} (h : graph.table.get? key = none) :
      SlotImage graph nodeMap variableMap (.variable key) .unbound

/-- A node and its image: the same kind, and the same memory of poses, results, playback and the last computation; but
    the image has not been computed itself. -/
structure NodeImage (graph : Graph α) (nodeMap : NodeKey → Option NodeKey)
    (variableMap : VariableKey → Option VariableKey) (node image : Node α) : Prop where
  kind : image.kind = node.kind
  state : image.state = node.state
  lastFrame : image.lastFrame = node.lastFrame
  evaluations : image.evaluations = 0
  inputs : List.Forall₂ (SlotImage graph nodeMap variableMap) node.inputs image.inputs

/-- A variable and the key of its image: the variable that is declared under its name at the start, of whatever type, or
    else a new variable of the same name and value. -/
def VariableImage (start table : VariableTable α) (v : Variable α) (image : VariableKey) : Prop :=
  match v.name.bind start.key? with
  | some declared => image = declared
  | none => start.get? image = none ∧ table.get? image = some v

/-- A graph is the copy, on a table, of what the output of another graph leads to: the copies of nodes and variables are
    given by two maps, and nothing else is there but what was in the table at the start. -/
structure IsCopy (graph : Graph α) (start : VariableTable α) (copy : Graph α) (nodeMap : NodeKey → Option NodeKey)
    (variableMap : VariableKey → Option VariableKey) : Prop where
  skeleton : copy.skeleton = graph.skeleton
  settings : copy.settings = graph.settings
  frame : copy.frame = graph.frame
  output : copy.output = graph.output.bind nodeMap
  /-- The nodes that the output leads to are copied. -/
  node_dom : ∀ key, (nodeMap key).isSome ↔
    ∃ output, graph.output = some output ∧ Relation.ReflTransGen graph.nodes.Binds output key
  node_injective : ∀ key other image, nodeMap key = some image → nodeMap other = some image → key = other
  node_range : ∀ image, copy.nodes.contains image ↔ ∃ key, nodeMap key = some image
  node_image : ∀ key image, nodeMap key = some image → ∃ source node, graph.node? key = some source ∧
    copy.node? image = some node ∧ NodeImage graph nodeMap variableMap source node
  /-- The variables that inputs of copied nodes are bound to are copied. -/
  variable_dom : ∀ key, (variableMap key).isSome ↔ graph.table.contains key ∧
    ∃ parent node, (nodeMap parent).isSome ∧ graph.node? parent = some node ∧ Slot.variable key ∈ node.inputs
  variable_injective : ∀ key other image, variableMap key = some image → variableMap other = some image → key = other
  variable_image : ∀ key image, variableMap key = some image →
    ∃ v, graph.table.get? key = some v ∧ VariableImage start copy.table v image
  kept : ∀ key v, start.get? key = some v → copy.table.get? key = some v
  kept_name : ∀ name key, start.key? name = some key → copy.table.key? name = some key
  added : ∀ key v, copy.table.get? key = some v →
    start.get? key = some v ∨
      (start.get? key = none ∧ ∃ old, variableMap old = some key ∧ graph.table.get? old = some v)
  index : copy.table.Exact

variable {graph : Graph α} {start : VariableTable α} {cloner : Cloner α}

/-- Every node that the output leads to has been copied: a copied node has copies of what its inputs are bound to. -/
theorem CopiedBy.exists_nodeKey? (h : graph.CopiedBy start cloner) (hclosed : graph.nodes.Closed) {output key : NodeKey}
    (houtput : graph.output = some output) (hkey : key ∈ graph.below output) :
    ∃ copy, cloner.nodeKey? key = some copy := by
  induction hkey with
  | refl => exact h.output output houtput
  | @tail parent child _ hbinds ih =>
    obtain ⟨copy, hcopy⟩ := ih
    obtain ⟨node, inputs, hnode, -, hinputs⟩ := h.faithful.copied_node parent copy hcopy
    obtain ⟨old, hold, hslot⟩ := hbinds
    obtain rfl := Option.some.inj (hnode.symm.trans hold)
    obtain ⟨image, -, himage⟩ := exists_of_mem_left hinputs hslot
    cases himage with
    | toNode hchild => exact ⟨_, hchild⟩
    | deadNode hdead =>
      obtain ⟨live, hlive⟩ := Nodes.get?_of_contains (hclosed parent child ⟨node, hnode, hslot⟩)
      cases hdead.symm.trans hlive

/-- Every variable that a copied node is bound to has been copied, if it is there. -/
theorem CopiedBy.exists_variableKey? (h : graph.CopiedBy start cloner) {parent copy : NodeKey} {node : Node α}
    {key : VariableKey} (hcopy : cloner.nodeKey? parent = some copy) (hnode : graph.node? parent = some node)
    (hslot : Slot.variable key ∈ node.inputs) (hkey : graph.table.contains key) :
    ∃ copy, cloner.variableKey? key = some copy := by
  obtain ⟨old, inputs, hold, -, hinputs⟩ := h.faithful.copied_node parent copy hcopy
  obtain rfl := Option.some.inj (hnode.symm.trans hold)
  obtain ⟨image, -, himage⟩ := exists_of_mem_left hinputs hslot
  cases himage with
  | toVariable hvariable => exact ⟨_, hvariable⟩
  | deadVariable hdead =>
    rw [VariableTable.contains, Arena.contains, show graph.table.entries.get? key = none from hdead] at hkey
    cases hkey

theorem slotImage_of_slotCopied (hclosed : graph.nodes.Closed) {key : NodeKey} {node : Node α}
    (hnode : graph.node? key = some node) {slot image : Slot} (hslot : slot ∈ node.inputs)
    (h : cloner.SlotCopied graph slot image) : SlotImage graph cloner.nodeKey? cloner.variableKey? slot image := by
  cases h with
  | unbound => exact .unbound
  | toNode h => exact .toNode h
  | @deadNode child hdead =>
    obtain ⟨live, hlive⟩ := Nodes.get?_of_contains (hclosed key child ⟨node, hnode, hslot⟩)
    cases hdead.symm.trans hlive
  | toVariable h => exact .toVariable h
  | deadVariable h => exact .gone h

theorem variableImage_of_variableCopied {table : VariableTable α} {v : Variable α} {image : VariableKey}
    (h : Cloner.VariableCopied start table v image) : VariableImage start table v image := by
  unfold VariableImage
  rcases h with hfound | ⟨hfree, hnew, hget⟩
  · rw [hfound]
  · rw [hfree]
    exact ⟨hnew, hget⟩

theorem CopiedBy.mem_iff (h : graph.CopiedBy start cloner) (hclosed : graph.nodes.Closed) (key : NodeKey) :
    (cloner.nodeKey? key).isSome ↔
      ∃ output, graph.output = some output ∧ Relation.ReflTransGen graph.nodes.Binds output key := by
  rw [Option.isSome_iff_exists]
  constructor
  · rintro ⟨copy, hcopy⟩
    exact h.nodes key copy hcopy
  · rintro ⟨output, houtput, hreach⟩
    exact h.exists_nodeKey? hclosed houtput hreach

theorem CopiedBy.variable_mem_iff (h : graph.CopiedBy start cloner) (hclosed : graph.nodes.Closed)
    (key : VariableKey) :
    (cloner.variableKey? key).isSome ↔ graph.table.contains key ∧
      ∃ parent node, (cloner.nodeKey? parent).isSome ∧ graph.node? parent = some node ∧
        Slot.variable key ∈ node.inputs := by
  simp only [Option.isSome_iff_exists]
  constructor
  · rintro ⟨copy, hcopy⟩
    obtain ⟨v, hv, -⟩ := h.faithful.copied_variable key copy hcopy
    obtain ⟨output, houtput, parent, hparent, node, hnode, hslot⟩ := h.variableKeys key copy hcopy
    exact ⟨VariableTable.contains_of_get? hv, parent, node, h.exists_nodeKey? hclosed houtput hparent, hnode, hslot⟩
  · rintro ⟨hlive, parent, node, ⟨copy, hcopy⟩, hnode, hslot⟩
    exact h.exists_variableKey? hcopy hnode hslot hlive

/-- What a cloner has made of a graph whose bindings lead to nodes that are there is a copy of it. -/
theorem CopiedBy.isCopy (h : graph.CopiedBy start cloner) (hclosed : graph.nodes.Closed) (hstart : start.Reached) :
    graph.IsCopy start (graph.clonedBy cloner) cloner.nodeKey? cloner.variableKey? where
  skeleton := rfl
  settings := rfl
  frame := rfl
  output := rfl
  node_dom := h.mem_iff hclosed
  node_injective := h.faithful.node_injective
  node_range image := by
    refine ⟨h.faithful.copies image, fun ⟨key, hkey⟩ => ?_⟩
    obtain ⟨_, _, -, hget, -⟩ := h.faithful.copied_node key image hkey
    exact Nodes.contains_of_get? hget
  node_image key image hkey := by
    obtain ⟨source, inputs, hsource, hget, hinputs⟩ := h.faithful.copied_node key image hkey
    refine ⟨source, source.withInputs inputs, hsource, hget, rfl, rfl, rfl, rfl, ?_⟩
    exact forall₂_of_mem hinputs fun slot hslot _ _ hcopied => slotImage_of_slotCopied hclosed hsource hslot hcopied
  variable_dom := h.variable_mem_iff hclosed
  variable_injective := h.faithful.variable_injective
  variable_image key image hkey := by
    obtain ⟨v, hv, hcopied⟩ := h.faithful.copied_variable key image hkey
    exact ⟨v, hv, variableImage_of_variableCopied hcopied⟩
  kept := h.faithful.kept
  kept_name name key hkey := h.faithful.key?_of_start hstart hkey
  added key v hv := by
    cases hkey : start.get? key with
    | some w => exact .inl ((h.faithful.kept key w hkey).symm.trans hv)
    | none =>
      rcases h.faithful.added key v hv with hold | ⟨old, hold⟩
      · cases hkey.symm.trans hold
      · refine .inr ⟨rfl, old, hold, ?_⟩
        obtain ⟨w, hw, hfound | ⟨-, -, hget⟩⟩ := h.faithful.copied_variable old key hold
        · obtain ⟨name, -, hname⟩ := Option.bind_eq_some_iff.1 hfound
          obtain ⟨declared, hdeclared, -⟩ := hstart.exact.get?_of_key? hname
          cases hkey.symm.trans hdeclared
        · rw [hw, ← hget]
          exact hv
  index := h.faithful.reached.exact

/-- The clone of a graph on a table of variables is a copy, on this table, of what the output of the graph leads to. -/
theorem Reached.cloneWithVariables_isCopy [Scalar α] (h : graph.Reached) (hstart : start.Reached) :
    graph.cloneWithVariables? start = some (graph.cloneWithVariables start) ∧
      ∃ nodeMap variableMap, graph.IsCopy start (graph.cloneWithVariables start) nodeMap variableMap := by
  obtain ⟨cloner, hclone, hcopied⟩ := h.wellFormed.cloneWithVariables?_eq_some hstart
  have heq : graph.cloneWithVariables start = graph.clonedBy cloner := by rw [cloneWithVariables, hclone]; rfl
  rw [heq]
  exact ⟨hclone, cloner.nodeKey?, cloner.variableKey?, hcopied.isCopy h.wellFormed.closed hstart⟩

/-- A clip sampler with its speed in a named variable and its loop flag in one of its own. -/
def tuned : Graph Binary32 :=
  [.addNode .clipSampler, .setOutput (some ⟨0⟩), .declareVariable "speed" (.float 1), .bindNamed ⟨0⟩ 1 "speed",
    .bindValue ⟨0⟩ 2 (.bool false)].foldl Command.run (.ofSkeleton oneBone .default)

/-- A table that declares a name of `tuned` with another type, and holds an unnamed variable. -/
def foreign : VariableTable Binary32 :=
  (VariableTable.empty.insert ⟨none, .bool true⟩).insert ⟨some "speed", .bool true⟩

theorem reached_foreign : foreign.Reached := by
  have hlocal : (VariableTable.empty.addLocal (.bool true) : VariableKey × VariableTable Binary32).2.Reached :=
    .addLocal .empty (.bool true)
  have hdeclare : (VariableTable.empty.addLocal (.bool true)).2.declare "speed" (.bool true) = .ok (⟨1⟩, foreign) :=
    rfl
  exact hlocal.declare hdeclare

/-- The speed of the clone is the variable of that name that was in the table, its loop flag a new variable. -/
theorem cloneWithVariables_isCopy_tuned :
    ∃ image node flag, (tuned.cloneWithVariables foreign).output = some image ∧
      (tuned.cloneWithVariables foreign).node? image = some node ∧ node.kind = .clipSampler ∧
      node.inputs = [.unbound, .variable ⟨1⟩, .variable flag] ∧ foreign.get? flag = none ∧
      (tuned.cloneWithVariables foreign).table.get? flag = some ⟨none, .bool false⟩ := by
  have hreached : tuned.Reached := (ReachedBy.new _ _).foldl (by simp)
  obtain ⟨-, nodeMap, variableMap, hcopy⟩ := hreached.cloneWithVariables_isCopy reached_foreign
  have houtput : tuned.output = some ⟨0⟩ := rfl
  have hspeed : tuned.table.get? ⟨0⟩ = some ⟨some "speed", .float 1⟩ := rfl
  have hflag : tuned.table.get? ⟨1⟩ = some ⟨none, .bool false⟩ := rfl
  have hdeclared : foreign.key? "speed" = some ⟨1⟩ := rfl
  obtain ⟨sampler, hsampler, hinputs⟩ : ∃ node, tuned.node? ⟨0⟩ = some node ∧
      (node.kind, node.inputs) = (.clipSampler, [.unbound, .variable ⟨0⟩, .variable ⟨1⟩]) :=
    ⟨_, rfl, rfl⟩
  simp only [Prod.mk.injEq] at hinputs
  obtain ⟨image, himage⟩ := Option.isSome_iff_exists.1 ((hcopy.node_dom ⟨0⟩).2 ⟨⟨0⟩, houtput, .refl⟩)
  obtain ⟨source, node, hsource, hnode, htwin⟩ := hcopy.node_image ⟨0⟩ image himage
  obtain rfl := Option.some.inj (hsampler.symm.trans hsource)
  have hslots := htwin.inputs
  rw [hinputs.2] at hslots
  simp only [List.forall₂_cons_left_iff, List.forall₂_nil_left_iff] at hslots
  obtain ⟨_, _, hclipSlot, ⟨_, _, hspeedSlot, ⟨_, _, hflagSlot, rfl, rfl⟩, rfl⟩, himages⟩ := hslots
  cases hclipSlot
  cases hspeedSlot with
  | gone hgone => cases hgone.symm.trans hspeed
  | @toVariable _ speed hspeedMap =>
    cases hflagSlot with
    | gone hgone => cases hgone.symm.trans hflag
    | @toVariable _ flag hflagMap =>
      obtain ⟨v, hv, hspeedImage⟩ := hcopy.variable_image ⟨0⟩ speed hspeedMap
      obtain rfl := Option.some.inj (hspeed.symm.trans hv)
      obtain ⟨w, hw, hflagImage⟩ := hcopy.variable_image ⟨1⟩ flag hflagMap
      obtain rfl := Option.some.inj (hflag.symm.trans hw)
      simp only [VariableImage, Option.bind_some, hdeclared] at hspeedImage
      obtain rfl := hspeedImage
      refine ⟨image, node, flag, ?_, hnode, htwin.kind.trans hinputs.1, himages, hflagImage⟩
      rw [hcopy.output, houtput, Option.bind_some, himage]

end Armature.Graph
