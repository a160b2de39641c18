import Armature.Proofs.Observation
import Armature.Proofs.Origin
import Armature.Proofs.Relocation

/-!
# Resets leave nothing behind

A program that works on a graph knows of it what the graph has returned to it: the keys of its own nodes and variables
(`Client`). After a reset it finds what it would find in a new graph, but for a clock that is ahead, since the new graph is
relocated and otherwise the same (`Graph.relocates_reset`); and the keys from before the reset lead to nothing for ever
(`Graph.Reached.reset_leaves_nothing`).
-/

namespace Armature

variable {α : Type}

namespace Graph

variable {graph : Graph α}

/-- No command but those that go on with a clone hands out a key again. -/
theorem WellFormed.advances_foldl [Scalar α] (h : graph.WellFormed True) {commands : List (Command α)}
    (hcommands : ∀ command ∈ commands, ¬ command.Clones) :
    graph.nodes.Advances (commands.foldl Command.run graph).nodes := by
  induction commands generalizing graph with
  | nil => exact .refl _
  | cons command commands ih =>
    obtain ⟨hcommand, hcommands⟩ := List.forall_mem_cons.1 hcommands
    exact ((h.leaves_run command).advances hcommand).trans (ih (h.run command fun _ => trivial) hcommands)

/-- A key leads to no node, and every call that it is given to fails for that. -/
structure Rejects (graph : Graph α) (key : NodeKey) : Prop where
  node? : graph.node? key = none
  setOutput : graph.setOutput (some key) = .error .unknownNode
  bindNode : ∀ index child, graph.bindNode key index child = .error .unknownNode
  bindNode_child : ∀ other index, graph.bindNode other index key = .error .unknownNode
  bindVariable : ∀ index variableKey, graph.table.contains variableKey →
    graph.bindVariable key index variableKey = .error .unknownNode
  bindNamed : ∀ index name, (graph.findVariable? name).isSome → graph.bindNamed key index name = .error .unknownNode
  bindValue : ∀ index value, graph.bindValue key index value = .error .unknownNode
  clearInput : ∀ index, graph.clearInput key index = .error .unknownNode
  resetInputs : graph.resetInputs key = .error .unknownNode

theorem rejects_of_node? {key : NodeKey} (h : graph.node? key = none) : graph.Rejects key := by
  have hdead : graph.nodes.contains key = false := congrArg Option.isSome h
  have hcheck : ∀ index, graph.checkInput key index = .error .unknownNode := by
    intro index
    rw [checkInput, h]
  have hvariable : ∀ index variableKey, graph.table.contains variableKey →
      graph.bindVariable key index variableKey = .error .unknownNode := by
    intro index variableKey hlive
    rw [Graph.bindVariable, if_pos hlive, hcheck]
    rfl
  refine ⟨h, ?_, fun index child => ?_, fun other index => ?_, hvariable, fun index name hname => ?_, ?_, ?_, ?_⟩
  · simp [Graph.setOutput, hdead]
  · rw [Graph.bindNode, hcheck]
    split <;> rfl
  · simp [Graph.bindNode, hdead]
  · obtain ⟨v, hv⟩ := Option.isSome_iff_exists.1 hname
    obtain ⟨variableKey, hkey, hget⟩ := Option.bind_eq_some_iff.1 hv
    rw [Graph.bindNamed, hkey]
    exact hvariable index variableKey (VariableTable.contains_of_get? hget)
  · intro index value
    rw [Graph.bindValue, hcheck]
    rfl
  · intro index
    rw [Graph.clearInput, hcheck]
    rfl
  · simp [Graph.resetInputs, hdead]

end Graph

/-! ## Programs -/

/-- An edit with other keys in place of its keys, if there are such. -/
def Edit.rekey? (node : NodeKey → Option NodeKey) (entry : VariableKey → Option VariableKey) :
    Edit α → Option (Edit α)
  | setOutput none => return .setOutput none
  | setOutput (some key) => return .setOutput (some (← node key))
  | bindNode key index child => return .bindNode (← node key) index (← node child)
  | bindVariable key index variableKey => return .bindVariable (← node key) index (← entry variableKey)
  | bindNamed key index name => return .bindNamed (← node key) index name
  | bindValue key index value => return .bindValue (← node key) index value
  | clearInput key index => return .clearInput (← node key) index
  | resetInputs key => return .resetInputs (← node key)
  | declareVariable name value => return .declareVariable name value
  | setVariable name value => return .setVariable name value
  | setVariableKey key value => return .setVariableKey (← entry key) value

/-- A step of a program that works on a graph. The program has no keys but those that earlier steps have returned to it:
    a key in a step is a number, that of the node or variable that the program was given first, second and so on. -/
inductive Step (α : Type) where
  | edit (edit : Edit α)
  | addNode (kind : NodeKind)
  | addLocalVariable (value : Value α)
  | setTime (key : NodeKey) (time : α)
  | clearVariables
  | reset
  | evaluate (timestep : α)
  | update (timestep : α)
  | updateWithRoot (timestep : α) (rootParent : Mat4 α)

/-- A program at work: the graph, and the keys that it has been given so far. -/
structure Client (α : Type) where
  graph : Graph α
  nodeKeys : List NodeKey
  variableKeys : List VariableKey

/-- What a program sees after a step: the answer, unless the step names a key that the program does not have; the number
    of the frame and the pose of the output; and what its nodes remember, and its variables and all names hold. -/
structure View (α : Type) where
  answer : Option (Answer α)
  frame : Nat
  pose : Option (Pose α)
  node : NodeKey → Option (NodeKind × NodeState α × Nat × Nat)
  entry : VariableKey → Option (Variable α)
  named : String → Option (Variable α)

/-- The same on a clock that is ahead. -/
def View.ahead (frames : Nat) (view : View α) : View α :=
  { view with
    frame := view.frame + frames
    node := fun place => (view.node place).map fun (kind, state, stamp, evaluations) =>
      (kind, state, if stamp = 0 then 0 else stamp + frames, evaluations) }

namespace Client

def start (graph : Graph α) : Client α := ⟨graph, [], []⟩

def nodeKey? (client : Client α) (place : NodeKey) : Option NodeKey := client.nodeKeys[place.id]?

def variableKey? (client : Client α) (place : VariableKey) : Option VariableKey := client.variableKeys[place.id]?

variable [Scalar α]

/-- A step, its answer, and what there is after it. A step that names a key that the program does not have does
    nothing. -/
def step (client : Client α) : Step α → Option (Answer α) × Client α
  | .edit edit =>
    match edit.rekey? client.nodeKey? client.variableKey? with
    | none => (none, client)
    | some edit =>
      let (answer, graph) := edit.perform client.graph
      let key? := answer.toOption.bind id
      (some (.edited (answer.map fun _ => ())),
        { client with graph, variableKeys := client.variableKeys ++ key?.toList })
  | .addNode kind =>
    let (key, graph) := client.graph.addNode kind
    (some .done, { client with graph, nodeKeys := client.nodeKeys ++ [key] })
  | .addLocalVariable value =>
    let (key, graph) := client.graph.addLocalVariable value
    (some .done, { client with graph, variableKeys := client.variableKeys ++ [key] })
  | .setTime place time =>
    match client.nodeKey? place with
    | none => (none, client)
    | some key => (some .done, { client with graph := client.graph.setTime key time })
  | .clearVariables => (some .done, { client with graph := client.graph.clearVariables })
  | .reset => (some .done, { client with graph := client.graph.reset })
  | .evaluate timestep =>
    let (pose, graph) := client.graph.evaluate timestep
    (some (.evaluated pose), { client with graph })
  | .update timestep =>
    let (palette, graph) := client.graph.update timestep
    (some (.updated palette), { client with graph })
  | .updateWithRoot timestep rootParent =>
    let (palette, graph) := client.graph.updateWithRoot timestep rootParent
    (some (.updated palette), { client with graph })

omit [Scalar α] in
def view (client : Client α) (answer : Option (Answer α)) : View α where
  answer
  frame := client.graph.frame
  pose := client.graph.outputPose
  node place := ((client.nodeKey? place).bind client.graph.node?).map Node.memory
  entry place := (client.variableKey? place).bind client.graph.table.get?
  named := client.graph.findVariable?

/-- What a program sees after each of its steps. -/
def views (client : Client α) : List (Step α) → List (View α)
  | [] => []
  | step :: steps =>
    let (answer, next) := client.step step
    next.view answer :: next.views steps

/-! ### Programs on relocated graphs -/

/-- Two runs of a program, the second on a graph that is relocated. -/
structure Follows (offset : Offset) (client other : Client α) : Prop where
  graph : offset.Relocates client.graph other.graph
  nodeKeys : other.nodeKeys = client.nodeKeys.map offset.nodeKey
  variableKeys : other.variableKeys = client.variableKeys.map offset.variableKey

variable {offset : Offset} {client other : Client α}

omit [Scalar α] in
theorem Follows.nodeKey? (h : Follows offset client other) (place : NodeKey) :
    other.nodeKey? place = (client.nodeKey? place).map offset.nodeKey := by
  rw [Client.nodeKey?, Client.nodeKey?, h.nodeKeys, List.getElem?_map]

omit [Scalar α] in
theorem Follows.variableKey? (h : Follows offset client other) (place : VariableKey) :
    other.variableKey? place = (client.variableKey? place).map offset.variableKey := by
  rw [Client.variableKey?, Client.variableKey?, h.variableKeys, List.getElem?_map]

omit [Scalar α] in
theorem Follows.rekey? (h : Follows offset client other) (edit : Edit α) :
    edit.rekey? other.nodeKey? other.variableKey? =
      (edit.rekey? client.nodeKey? client.variableKey?).map offset.edit := by
  cases edit with
  | setOutput output =>
    cases output with
    | none => rfl
    | some key =>
      simp only [Edit.rekey?, h.nodeKey?]
      cases client.nodeKey? key <;> rfl
  | bindNode key index child =>
    simp only [Edit.rekey?, h.nodeKey?]
    cases client.nodeKey? key <;> cases client.nodeKey? child <;> rfl
  | bindVariable key index variableKey =>
    simp only [Edit.rekey?, h.nodeKey?, h.variableKey?]
    cases client.nodeKey? key <;> cases client.variableKey? variableKey <;> rfl
  | bindNamed key | bindValue key | clearInput key | resetInputs key =>
    simp only [Edit.rekey?, h.nodeKey?]
    cases client.nodeKey? key <;> rfl
  | declareVariable name value | setVariable name value => rfl
  | setVariableKey key value =>
    simp only [Edit.rekey?, h.variableKey?]
    cases client.variableKey? key <;> rfl

omit [Scalar α] in
theorem Follows.view (h : Follows offset client other) (answer : Option (Answer α)) :
    other.view answer = (client.view answer).ahead offset.frames := by
  have hnode : ∀ place, ((other.nodeKey? place).bind other.graph.node?) =
      ((client.nodeKey? place).bind client.graph.node?).map offset.node := by
    intro place
    rw [h.nodeKey?]
    cases client.nodeKey? place with
    | none => rfl
    | some key => exact h.graph.node? key
  have hentry : ∀ place, (other.variableKey? place).bind other.graph.table.get? =
      (client.variableKey? place).bind client.graph.table.get? := by
    intro place
    rw [h.variableKey?]
    cases client.variableKey? place with
    | none => rfl
    | some key => exact h.graph.table.get? key
  have hnamed : other.graph.findVariable? = client.graph.findVariable? := funext h.graph.table.find?
  simp only [Client.view, View.ahead, h.graph.frame, h.graph.outputPose, hnode, hentry, hnamed, Option.map_map]
  rfl

theorem Follows.step (h : Follows offset client other) (hclient : client.graph.WellFormed True)
    (hother : other.graph.WellFormed True) (step : Step α) :
    (other.step step).1 = (client.step step).1 ∧ Follows offset (client.step step).2 (other.step step).2 := by
  have heval := fun timestep => h.graph.evaluate hclient hother timestep
  have hupdate : ∀ timestep rootParent, (other.graph.updateWithRoot timestep rootParent).1 =
      (client.graph.updateWithRoot timestep rootParent).1 := by
    intro timestep rootParent
    simp only [Graph.updateWithRoot, (heval timestep).1, (heval timestep).2.skeleton]
  cases step with
  | edit edit =>
    simp only [Client.step, h.rekey?]
    cases edit.rekey? client.nodeKey? client.variableKey? with
    | none => exact ⟨rfl, h⟩
    | some edit =>
      obtain ⟨hanswer, hgraph⟩ := h.graph.perform hclient.closed hother.closed edit
      simp only [Option.map_some]
      generalize (edit.perform client.graph).1 = a, ((offset.edit edit).perform other.graph).1 = b at hanswer
      cases hanswer with
      | @ok key? key?' hkey =>
        subst hkey
        refine ⟨rfl, hgraph, h.nodeKeys, ?_⟩
        cases key? <;> simp [Except.toOption, h.variableKeys]
      | error cause => exact ⟨rfl, hgraph, h.nodeKeys, by simp [Except.toOption, h.variableKeys]⟩
  | addNode kind =>
    obtain ⟨hkey, hnext⟩ := h.graph.addNode kind
    exact ⟨rfl, hnext, by simp [Client.step, h.nodeKeys, hkey], h.variableKeys⟩
  | addLocalVariable value =>
    obtain ⟨hkey, hnext⟩ := h.graph.addLocalVariable value
    exact ⟨rfl, hnext, h.nodeKeys, by simp [Client.step, h.variableKeys, hkey]⟩
  | setTime place time =>
    simp only [Client.step, h.nodeKey?]
    cases client.nodeKey? place with
    | none => exact ⟨rfl, h⟩
    | some key => exact ⟨rfl, h.graph.setTime key time, h.nodeKeys, h.variableKeys⟩
  | clearVariables => exact ⟨rfl, h.graph.clearVariables, h.nodeKeys, h.variableKeys⟩
  | reset => exact ⟨rfl, h.graph.reset, h.nodeKeys, h.variableKeys⟩
  | evaluate timestep =>
    have hanswer := congrArg (fun pose => some (Answer.evaluated pose)) (heval timestep).1
    exact ⟨hanswer, (heval timestep).2, h.nodeKeys, h.variableKeys⟩
  | update timestep =>
    have hroot := hupdate timestep client.graph.settings.rootTransform
    have hpalette : (other.graph.update timestep).1 = (client.graph.update timestep).1 := by
      refine Eq.trans ?_ hroot
      rw [← h.graph.settings]
      rfl
    have hanswer := congrArg (fun palette => some (Answer.updated palette)) hpalette
    exact ⟨hanswer, (heval timestep).2, h.nodeKeys, h.variableKeys⟩
  | updateWithRoot timestep rootParent =>
    have hanswer := congrArg (fun palette => some (Answer.updated palette)) (hupdate timestep rootParent)
    exact ⟨hanswer, (heval timestep).2, h.nodeKeys, h.variableKeys⟩

/-- A step leaves the graph alone or does what a command does. -/
theorem exists_command_step (client : Client α) (step : Step α) :
    (client.step step).2.graph = client.graph ∨
      ∃ command, (client.step step).2.graph = Command.run client.graph command := by
  cases step with
  | edit edit =>
    simp only [Client.step]
    cases edit.rekey? client.nodeKey? client.variableKey? with
    | none => exact .inl rfl
    | some edit => exact .inr ⟨edit.command, edit.perform_snd client.graph⟩
  | addNode kind => exact .inr ⟨.addNode kind, rfl⟩
  | addLocalVariable value => exact .inr ⟨.addLocalVariable value, rfl⟩
  | setTime place time =>
    simp only [Client.step]
    cases client.nodeKey? place with
    | none => exact .inl rfl
    | some key => exact .inr ⟨.setTime key time, rfl⟩
  | clearVariables => exact .inr ⟨.clearVariables, rfl⟩
  | reset => exact .inr ⟨.reset, rfl⟩
  | evaluate timestep | update timestep => exact .inr ⟨.evaluate timestep, rfl⟩
  | updateWithRoot timestep rootParent => exact .inr ⟨.evaluate timestep, rfl⟩

theorem wellFormed_step {client : Client α} (h : client.graph.WellFormed True) (step : Step α) :
    (client.step step).2.graph.WellFormed True := by
  rcases client.exists_command_step step with hsame | ⟨command, hrun⟩
  · rw [hsame]
    exact h
  · rw [hrun]
    exact h.run command fun _ => trivial

/-- Whatever a program does, it sees the same on the relocated graph, on its clock. -/
theorem Follows.views (h : Follows offset client other) (hclient : client.graph.WellFormed True)
    (hother : other.graph.WellFormed True) (steps : List (Step α)) :
    other.views steps = (client.views steps).map (.ahead offset.frames) := by
  induction steps generalizing client other with
  | nil => rfl
  | cons step steps ih =>
    obtain ⟨hanswer, hnext⟩ := h.step hclient hother step
    have hrest := ih hnext (wellFormed_step hclient step) (wellFormed_step hother step)
    simp only [Client.views, List.map_cons, hanswer, hnext.view, hrest]

end Client

/-! ## Resets -/

namespace Graph

/-- After a reset there is a new graph, relocated behind the keys and frames of the old one. -/
theorem relocates_reset (graph : Graph α) :
    Offset.Relocates ⟨graph.nodes.issued, graph.table.entries.issued, graph.frame⟩
      (.ofSkeleton graph.skeleton graph.settings) graph.reset where
  skeleton := rfl
  settings := rfl
  frame := (Nat.zero_add _).symm
  output := rfl
  issued := (Nat.zero_add _).symm
  node? key := by simp [Graph.node?, Graph.reset, ofSkeleton]
  table :=
    { issued := (Nat.zero_add _).symm
      get? := fun key => (VariableTable.get?_clear _ _).trans (Arena.get?_empty key).symm
      key? := fun name => by simp [Graph.reset, ofSkeleton, VariableTable.key?, VariableTable.empty, VariableTable.clear] }

variable [Scalar α] {graph : Graph α}

/-- A program that works with keys of its own sees the same after a reset as in a new graph with the skeleton and the
    settings, but for the clock, which goes on counting. A key that led to a node at any time before a reset leads to
    nothing after it, whatever is done to the graph from then on, and whoever uses it is told that there is no such
    node. -/
theorem Reached.reset_leaves_nothing (h : graph.Reached) :
    (∀ steps, (Client.start graph.reset).views steps =
      ((Client.start (.ofSkeleton graph.skeleton graph.settings)).views steps).map (.ahead graph.frame)) ∧
    ∀ key, graph.nodes.contains key → ∀ before after : List (Command α),
      (∀ command ∈ before ++ after, ¬ command.Clones) →
      (after.foldl Command.run (before.foldl Command.run graph).reset).Rejects key := by
  refine ⟨fun steps => ?_, fun key hkey before after hcommands => ?_⟩
  · have hstart : Client.Follows ⟨graph.nodes.issued, graph.table.entries.issued, graph.frame⟩
        (.start (.ofSkeleton graph.skeleton graph.settings)) (.start graph.reset) :=
      ⟨graph.relocates_reset, rfl, rfl⟩
    exact hstart.views (wellFormed_ofSkeleton True _ _) h.wellFormed.reset steps
  · obtain ⟨hbefore, hafter⟩ := List.forall_mem_append.1 hcommands
    have hreached : (before.foldl Command.run graph).Reached := ReachedBy.foldl h fun _ _ => trivial
    obtain ⟨node, hnode⟩ := Nodes.get?_of_contains hkey
    have hissued := Nat.lt_of_lt_of_le (Arena.handedOut_of_get? hnode) (h.wellFormed.advances_foldl hbefore).issued
    have hlater := hreached.wellFormed.reset.advances_foldl hafter
    exact rejects_of_node? (hlater.gone key hissued (Arena.get?_clear _ _))

/-- A program that builds the blend of a clip sampler with itself, and fails to bind the sampler to the blend. -/
def rebuild : List (Step Binary32) :=
  [.addNode .clipSampler, .addNode .blend, .edit (.bindNode ⟨1⟩ 0 ⟨0⟩), .edit (.bindNode ⟨1⟩ 1 ⟨0⟩),
    .edit (.setOutput (some ⟨1⟩)), .edit (.bindNode ⟨0⟩ 1 ⟨1⟩), .update 1, .evaluate 0]

/-- After a frame and a reset, the program finds a clock that is one frame ahead, and the old blend is not there. -/
theorem reset_leaves_nothing_diamond :
    (Client.start (diamond.evaluate 1).2.reset).views rebuild =
      ((Client.start (.ofSkeleton diamond.skeleton diamond.settings)).views rebuild).map (.ahead 1) ∧
      ([.addNode .clipSampler, .addNode .blend].foldl Command.run (diamond.evaluate 1).2.reset).Rejects ⟨1⟩ := by
  have hwell := reachedBy_diamond.reached.wellFormed
  have hreached : (diamond.evaluate 1).2.Reached :=
    show (Command.run diamond (.evaluate 1)).Reached from reachedBy_diamond.reached.step trivial
  have hzero : diamond.frame = 0 := by
    rw [diamond_eq]
    rfl
  have hlive : diamond.nodes.contains ⟨1⟩ := Nodes.contains_of_get? node?_diamond.2
  have hviews := hreached.reset_leaves_nothing.1
  have hrejects := reachedBy_diamond.reached.reset_leaves_nothing.2 ⟨1⟩ hlive [.evaluate 1]
    [.addNode .clipSampler, .addNode .blend] (by simp [Command.Clones])
  refine ⟨?_, hrejects⟩
  rw [hviews, hwell.frame_evaluate, hwell.skeleton_evaluate, hwell.settings_evaluate, hzero]

end Graph
end Armature
