import Armature.Proofs.Twins

/-!
# What is seen of a graph and its clone

A clone is a twin of its source (`Graph.WellFormed.twins_clone`), and twins answer calls alike (`Graph.Twins.run`). So the
clone plays back as the source does (`Graph.Reached.clone_observations`).
-/

namespace Armature

variable {α : Type}

namespace Graph

variable {cleared : Prop} {graph : Graph α}

/-- The copy of a variable has its name and value, if the named variables were copied from the table itself. -/
theorem CopiedBy.get?_copy (hexact : graph.table.Exact) {cloner : Cloner α}
    (h : graph.CopiedBy graph.table.copyNamed cloner) {key copy : VariableKey}
    (hcopy : cloner.variableKey? key = some copy) :
    ∃ v, graph.table.get? key = some v ∧ cloner.table.get? copy = some v := by
  obtain ⟨v, hv, hfound | ⟨-, -, hnew⟩⟩ := h.faithful.copied_variable key copy hcopy
  · refine ⟨v, hv, h.faithful.kept copy v ?_⟩
    obtain ⟨name, hname, hfound⟩ := Option.bind_eq_some_iff.1 hfound
    have hfind : graph.table.copyNamed.find? name = some v := by
      rw [hexact.copyNamed?_eq_some.2.2 name]
      exact (hexact.find?_eq_some_iff name v).2 ⟨key, hv, hname⟩
    rw [VariableTable.find?, hfound, Option.bind_some] at hfind
    exact hfind
  · exact ⟨v, hv, hnew⟩

theorem CopiedBy.find?_eq (hexact : graph.table.Exact) {cloner : Cloner α}
    (h : graph.CopiedBy graph.table.copyNamed cloner) (name : String) :
    graph.table.find? name = cloner.table.find? name := by
  have hfind := hexact.copyNamed?_eq_some.2.2 name
  have hcopies := hexact.copyNamed?_eq_some.2.1
  refine Option.ext fun v => ⟨fun hv => ?_, fun hv => ?_⟩
  · rw [← hfind] at hv
    obtain ⟨key, hget, hname⟩ := (hcopies.find?_eq_some_iff name v).1 hv
    exact (h.faithful.reached.exact.find?_eq_some_iff name v).2 ⟨key, h.faithful.kept key v hget, hname⟩
  · obtain ⟨key, hget, hname⟩ := (h.faithful.reached.exact.find?_eq_some_iff name v).1 hv
    rcases h.faithful.added key v hget with hold | ⟨old, hold⟩
    · rw [← hfind]
      exact (hcopies.find?_eq_some_iff name v).2 ⟨key, hold, hname⟩
    · obtain ⟨w, hw, hcopy⟩ := h.get?_copy hexact hold
      obtain rfl := Option.some.inj (hget.symm.trans hcopy)
      exact (hexact.find?_eq_some_iff name v).2 ⟨old, hw, hname⟩

theorem WellFormed.twins_clonedBy (h : graph.WellFormed cleared) {cloner : Cloner α}
    (hcopied : graph.CopiedBy graph.table.copyNamed cloner) :
    Twins (fun key copy => cloner.nodeKey? key = some copy) graph (graph.clonedBy cloner) where
  skeleton := rfl
  settings := rfl
  frame := rfl
  names := hcopied.find?_eq h.table.exact
  unique := ⟨fun _ _ _ ha hb => hcopied.faithful.node_injective _ _ _ ha hb,
    fun _ _ _ ha hb => Option.some.inj (ha.symm.trans hb)⟩
  output := by
    rw [Graph.clonedBy]
    cases houtput : graph.output with
    | none => exact .none
    | some output =>
      obtain ⟨copy, hcopy⟩ := hcopied.output output houtput
      rw [Option.bind_some, hcopy]
      exact .some hcopy
  nodes key copy hcopy := by
    obtain ⟨node, inputs, hnode, hget, hinputs⟩ := hcopied.faithful.copied_node key copy hcopy
    refine ⟨node, node.withInputs inputs, hnode, hget, rfl, rfl, rfl, ?_⟩
    refine forall₂_of_mem hinputs fun slot hslot slot' _ hcopied' => ?_
    cases hcopied' with
    | unbound => exact .held rfl rfl rfl
    | toNode hchild => exact .node hchild
    | deadNode hdead =>
      have hlive := (h.fits key node hnode).children _ hslot
      obtain ⟨child, hchild⟩ := Nodes.get?_of_contains hlive
      rw [node?, hchild] at hdead
      cases hdead
    | toVariable hvariable =>
      obtain ⟨v, hv, hw⟩ := hcopied.get?_copy h.table.exact hvariable
      exact .held rfl rfl (hv.trans hw.symm)
    | deadVariable hdead => exact .held rfl rfl hdead

/-- A clone is a twin of its source. -/
theorem WellFormed.twins_clone (h : graph.WellFormed cleared) :
    graph.clone? = some graph.clone ∧ ∃ r, Twins r graph graph.clone := by
  obtain ⟨cloner, hclone, hcopied⟩ := h.cloneWithVariables?_eq_some h.table.copyNamed
  have hsome : graph.clone? = some (graph.clonedBy cloner) := h.clone?_eq.trans hclone
  have heq : graph.clone = graph.clonedBy cloner := by rw [Graph.clone, hsome, Option.getD_some]
  rw [heq]
  exact ⟨hsome, _, h.twins_clonedBy hcopied⟩

end Graph

/-! ## Calls -/

/-- What can be asked of a graph that is played. -/
inductive Call (α : Type) where
  | setVariable (name : String) (value : Value α)
  | declareVariable (name : String) (value : Value α)
  | evaluate (timestep : α)
  | update (timestep : α)
  | updateWithRoot (timestep : α) (rootParent : Mat4 α)
  | other (command : Command α)

/-- What a call answers. New keys are left out. -/
inductive Answer (α : Type) where
  | edited (outcome : Except Error Unit)
  | evaluated (pose : Option (Pose α))
  | updated (palette : Palette α)
  | done

/-- What is seen of a graph by whoever calls it: the answer and, after the call, the number of the frame and the pose of
    the output. -/
structure Observation (α : Type) where
  answer : Answer α
  frame : Nat
  pose : Option (Pose α)

/-- What a node remembers, as far as it is seen: its kind, its results and playback, the frame of its last computation
    and the number of its computations. -/
def Node.memory (node : Node α) : NodeKind × NodeState α × Nat × Nat :=
  (node.kind, node.state, node.lastFrame, node.evaluations)

/-- The calls that play a graph and leave its nodes in place. -/
def Call.Plays : Call α → Prop
  | other _ => False
  | _ => True

variable [Scalar α]

/-- The answer of a call, and the graph after it. -/
def Call.run (graph : Graph α) : Call α → Answer α × Graph α
  | setVariable name value =>
    (.edited ((graph.setVariable name value).map fun _ => ()), graph.orKeep (graph.setVariable name value))
  | declareVariable name value =>
    (.edited ((graph.declareVariable name value).map fun _ => ()),
      graph.orKeep ((graph.declareVariable name value).map (·.2)))
  | evaluate timestep => ((graph.evaluate timestep).map .evaluated id)
  | update timestep => ((graph.update timestep).map .updated id)
  | updateWithRoot timestep rootParent => ((graph.updateWithRoot timestep rootParent).map .updated id)
  | other command => (.done, command.run graph)

namespace Graph

/-- What is seen of a graph in one call after the other. -/
def observations (graph : Graph α) : List (Call α) → List (Observation α)
  | [] => []
  | call :: calls =>
    let (answer, next) := call.run graph
    ⟨answer, next.frame, next.outputPose⟩ :: next.observations calls

variable {cleared cleared' : Prop} {r : NodeKey → NodeKey → Prop} {graph twin : Graph α}

omit [Scalar α] in
/-- Twins stay twins in edits that both succeed or both fail. -/
theorem Twins.orKeep (h : Twins r graph twin) {edited edited' : Except Error (Graph α)}
    (houtcome : edited.map (fun _ => ()) = edited'.map (fun _ => ()))
    (hok : ∀ next next', edited = .ok next → edited' = .ok next' → Twins r next next') :
    Twins r (graph.orKeep edited) (twin.orKeep edited') := by
  cases edited with
  | ok next =>
    cases edited' with
    | ok next' => exact hok next next' rfl rfl
    | error => cases houtcome
  | error =>
    cases edited' with
    | ok => cases houtcome
    | error => exact h

omit [Scalar α] in
theorem map_setVariable (graph : Graph α) (name : String) (value : Value α) :
    (graph.setVariable name value).map (fun _ => ()) = (graph.table.set name value).map (fun _ => ()) := by
  unfold Graph.setVariable
  cases graph.table.set name value <;> rfl

omit [Scalar α] in
theorem map_declareVariable (graph : Graph α) (name : String) (value : Value α) :
    (graph.declareVariable name value).map (fun _ => ()) =
      (graph.table.declare name value).map (fun _ => ()) := by
  unfold Graph.declareVariable
  cases graph.table.declare name value <;> rfl

omit [Scalar α] in
/-- An assignment to the variable of a name succeeds for both twins or fails for both alike, and leaves twins. -/
theorem Twins.setVariable (h : Twins r graph twin) (hgraph : graph.WellFormed cleared)
    (htwin : twin.WellFormed cleared') (name : String) (value : Value α) :
    (graph.setVariable name value).map (fun _ => ()) = (twin.setVariable name value).map (fun _ => ()) ∧
      Twins r (graph.orKeep (graph.setVariable name value)) (twin.orKeep (twin.setVariable name value)) := by
  have houtcome : (graph.setVariable name value).map (fun _ => ()) =
      (twin.setVariable name value).map (fun _ => ()) := by
    rw [map_setVariable, map_setVariable, hgraph.table.exact.map_set, htwin.table.exact.map_set, h.names]
  refine ⟨houtcome, h.orKeep houtcome fun next next' hnext hnext' => ?_⟩
  obtain ⟨table, hset, rfl⟩ := setVariable_eq_ok hnext
  obtain ⟨table', hset', rfl⟩ := setVariable_eq_ok hnext'
  refine h.withTables (reassign name value) ?_ ?_ ?_
  · intro other
    rw [hgraph.table.exact.find?_set hset, htwin.table.exact.find?_set hset', h.names]
  · intro _ _ slot _ _
    exact hgraph.table.exact.held_set hset slot
  · intro _ _ slot _ _
    exact htwin.table.exact.held_set hset' slot

omit [Scalar α] in
/-- A declaration succeeds for both twins or fails for both alike, and leaves twins. -/
theorem Twins.declareVariable (h : Twins r graph twin) (hgraph : graph.WellFormed cleared)
    (htwin : twin.WellFormed cleared') (name : String) (value : Value α) :
    (graph.declareVariable name value).map (fun _ => ()) = (twin.declareVariable name value).map (fun _ => ()) ∧
      Twins r (graph.orKeep ((graph.declareVariable name value).map (·.2)))
        (twin.orKeep ((twin.declareVariable name value).map (·.2))) := by
  have houtcome : (graph.declareVariable name value).map (fun _ => ()) =
      (twin.declareVariable name value).map (fun _ => ()) := by
    rw [map_declareVariable, map_declareVariable, hgraph.table.exact.map_declare, htwin.table.exact.map_declare,
      h.names]
  have houtcome' : ((graph.declareVariable name value).map (·.2)).map (fun _ => ()) =
      ((twin.declareVariable name value).map (·.2)).map (fun _ => ()) := by
    cases hdeclare : graph.declareVariable name value <;>
      cases hdeclare' : twin.declareVariable name value <;>
      rw [hdeclare, hdeclare'] at houtcome <;> exact houtcome
  refine ⟨houtcome, h.orKeep houtcome' fun next next' hnext hnext' => ?_⟩
  obtain ⟨⟨_, next⟩, hedit, rfl⟩ := map_eq_ok hnext
  obtain ⟨⟨_, next'⟩, hedit', rfl⟩ := map_eq_ok hnext'
  obtain ⟨table, hdeclare, rfl⟩ := declareVariable_eq_ok hedit
  obtain ⟨table', hdeclare', rfl⟩ := declareVariable_eq_ok hedit'
  obtain ⟨-, -, rfl⟩ := VariableTable.declare_eq_ok hdeclare
  obtain ⟨-, -, rfl⟩ := VariableTable.declare_eq_ok hdeclare'
  refine h.withTables id ?_ ?_ ?_
  · intro other
    rw [hgraph.table.exact.find?_insert, htwin.table.exact.find?_insert, h.names]
  · intro _ _ slot hnode hslot
    exact hgraph.held_insert _ hnode hslot
  · intro _ _ slot hnode hslot
    exact htwin.held_insert _ hnode hslot

/-- Twins answer a call alike and are twins after it. -/
theorem Twins.run (h : Twins r graph twin) (hgraph : graph.WellFormed cleared) (htwin : twin.WellFormed cleared')
    {call : Call α} (hplays : call.Plays) :
    (call.run graph).1 = (call.run twin).1 ∧ Twins r (call.run graph).2 (call.run twin).2 := by
  have heval := fun timestep => h.evaluate hgraph htwin timestep
  have hpose : ∀ timestep, (graph.evaluate timestep).1 = (twin.evaluate timestep).1 := by
    intro timestep
    rw [hgraph.evaluate_fst, htwin.evaluate_fst, (heval timestep).outputPose]
  have hupdate : ∀ timestep rootParent,
      (graph.updateWithRoot timestep rootParent).1 = (twin.updateWithRoot timestep rootParent).1 := by
    intro timestep rootParent
    simp only [Graph.updateWithRoot, hpose, (heval timestep).skeleton]
  cases call with
  | setVariable name value =>
    obtain ⟨houtcome, hnext⟩ := h.setVariable hgraph htwin name value
    exact ⟨congrArg Answer.edited houtcome, hnext⟩
  | declareVariable name value =>
    obtain ⟨houtcome, hnext⟩ := h.declareVariable hgraph htwin name value
    exact ⟨congrArg Answer.edited houtcome, hnext⟩
  | evaluate timestep => exact ⟨congrArg Answer.evaluated (hpose timestep), heval timestep⟩
  | update timestep =>
    have hroot := hupdate timestep graph.settings.rootTransform
    refine ⟨congrArg Answer.updated (hroot.trans ?_), heval timestep⟩
    rw [h.settings]
    rfl
  | updateWithRoot timestep rootParent =>
    exact ⟨congrArg Answer.updated (hupdate timestep rootParent), heval timestep⟩
  | other command => exact hplays.elim

theorem WellFormed.call (h : graph.WellFormed True) (call : Call α) : (call.run graph).2.WellFormed True := by
  have hrun := fun command => h.run command fun _ => trivial
  cases call with
  | setVariable name value => exact hrun (.setVariable name value)
  | declareVariable name value => exact hrun (.declareVariable name value)
  | evaluate timestep | update timestep => exact hrun (.evaluate timestep)
  | updateWithRoot timestep rootParent => exact hrun (.evaluate timestep)
  | other command => exact hrun command

/-- The same is seen of twins. -/
theorem Twins.observations (h : Twins r graph twin) (hgraph : graph.WellFormed True) (htwin : twin.WellFormed True)
    {calls : List (Call α)} (hplays : ∀ call ∈ calls, call.Plays) :
    graph.observations calls = twin.observations calls := by
  induction calls generalizing graph twin with
  | nil => rfl
  | cons call calls ih =>
    obtain ⟨hcall, hcalls⟩ := List.forall_mem_cons.1 hplays
    obtain ⟨hanswer, hnext⟩ := h.run hgraph htwin hcall
    have hrest := ih hnext (hgraph.call call) (htwin.call call) hcalls
    simp only [Graph.observations, hanswer, hnext.frame, hnext.outputPose, hrest]

end Graph

/-! ## A graph and its clone, side by side -/

inductive Side where
  | source
  | clone
deriving DecidableEq

structure Pair (α : Type) where
  source : Graph α
  clone : Graph α

/-- What belongs to a side, in order. -/
def Side.pick {β : Type} (side : Side) (entries : List (Side × β)) : List β :=
  (entries.filter (·.1 = side)).map (·.2)

namespace Pair

def on (pair : Pair α) : Side → Graph α
  | .source => pair.source
  | .clone => pair.clone

def replace (pair : Pair α) (graph : Graph α) : Side → Pair α
  | .source => { pair with source := graph }
  | .clone => { pair with clone := graph }

/-- What is seen on each side when both are called, in any order. -/
def observations (pair : Pair α) : List (Side × Call α) → List (Side × Observation α)
  | [] => []
  | (side, call) :: calls =>
    let (answer, next) := call.run (pair.on side)
    (side, ⟨answer, next.frame, next.outputPose⟩) :: (pair.replace next side).observations calls

omit [Scalar α] in
theorem on_replace (pair : Pair α) (graph : Graph α) (side other : Side) :
    (pair.replace graph side).on other = if other = side then graph else pair.on other := by
  cases side <;> cases other <;> rfl

/-- What is seen on a side depends on the calls of that side alone. -/
theorem pick_observations (pair : Pair α) (calls : List (Side × Call α)) (side : Side) :
    side.pick (pair.observations calls) = (pair.on side).observations (side.pick calls) := by
  induction calls generalizing pair with
  | nil => rfl
  | cons entry calls ih =>
    obtain ⟨other, call⟩ := entry
    have hrest := ih (pair.replace (call.run (pair.on other)).2 other)
    rw [on_replace] at hrest
    by_cases hside : other = side
    · subst hside
      simp only [if_true] at hrest
      simpa [observations, Graph.observations, Side.pick] using hrest
    · rw [if_neg (Ne.symm hside)] at hrest
      simpa [observations, Side.pick, hside] using hrest

end Pair

namespace Graph

variable {graph : Graph α}

/-- A clone plays back as its source does: whatever calls that assign or declare variables of a name and evaluate or
    update the graph are made on the one and on the other, the same is seen, answers and failures, frames, output poses
    and palettes. And calls of any kind on one of them change nothing of what is seen of the other. -/
theorem Reached.clone_observations (h : graph.Reached) :
    graph.clone? = some graph.clone ∧
    (∀ calls : List (Call α), (∀ call ∈ calls, call.Plays) →
      graph.clone.observations calls = graph.observations calls) ∧
    ∀ (calls : List (Side × Call α)) (side : Side),
      side.pick (Pair.observations ⟨graph, graph.clone⟩ calls) =
        (Pair.on ⟨graph, graph.clone⟩ side).observations (side.pick calls) := by
  obtain ⟨hclone, r, htwins⟩ := h.wellFormed.twins_clone
  refine ⟨hclone, fun calls hplays => ?_, fun calls side => Pair.pick_observations _ calls side⟩
  exact (htwins.observations h.wellFormed h.wellFormed.clone hplays).symm

theorem clone_observations_diamond :
    diamond.clone.observations [.setVariable "speed" (.float 1), .update 1, .evaluate 0] =
      diamond.observations [.setVariable "speed" (.float 1), .update 1, .evaluate 0] :=
  reachedBy_diamond.reached.clone_observations.2.1 _ (by simp [Call.Plays])

end Graph
end Armature
