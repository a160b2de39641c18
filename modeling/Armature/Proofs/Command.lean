import Armature.Graph.Clone
import Armature.Graph.Edit
import Armature.Graph.Evaluate
import Armature.Number.Binary32
import Armature.Proofs.Edit
import Armature.Proofs.NameIndex
import Armature.Proofs.Palette

/-!
# Commands

The states of graphs. Whoever holds a graph edits it, assigns variables, evaluates it, and goes on with a clone of it
(`Command`); a command that fails leaves the graph as it was. The graphs that can be met are those that commands lead to
from a graph without nodes and variables (`Graph.ReachedBy`).
-/

namespace Armature

variable {α : Type}

/-- What can be done to a graph. -/
inductive Command (α : Type) where
  | addNode (kind : NodeKind)
  | setOutput (output : Option NodeKey)
  | bindNode (key : NodeKey) (index : Nat) (child : NodeKey)
  | bindVariable (key : NodeKey) (index : Nat) (variableKey : VariableKey)
  | bindNamed (key : NodeKey) (index : Nat) (name : String)
  | bindValue (key : NodeKey) (index : Nat) (value : Value α)
  | clearInput (key : NodeKey) (index : Nat)
  | resetInputs (key : NodeKey)
  | declareVariable (name : String) (value : Value α)
  | addLocalVariable (value : Value α)
  | setVariable (name : String) (value : Value α)
  | setVariableKey (key : VariableKey) (value : Value α)
  | clearVariables
  | setTime (key : NodeKey) (time : α)
  | reset
  | evaluate (timestep : α)
  | clone
  | cloneWithVariables (table : VariableTable α) (h : table.Reached)

namespace Graph

/-- The graph that an edit leads to; the graph itself if the edit fails. -/
def orKeep (graph : Graph α) (edited : Except Error (Graph α)) : Graph α :=
  match edited with
  | .ok next => next
  | .error _ => graph

/-- What holds of a graph and of every graph that an edit of it leads to holds whether the edit fails or not. -/
theorem orKeep_induction {p : Graph α → Prop} {graph : Graph α} {edited : Except Error (Graph α)}
    (hkeep : p graph) (hok : ∀ next, edited = .ok next → p next) : p (graph.orKeep edited) := by
  cases hedited : edited with
  | ok next => exact hok next hedited
  | error => exact hkeep

end Graph

variable [Scalar α]

def Command.run (graph : Graph α) : Command α → Graph α
  | addNode kind => (graph.addNode kind).2
  | setOutput output => graph.orKeep (graph.setOutput output)
  | bindNode key index child => graph.orKeep (graph.bindNode key index child)
  | bindVariable key index variableKey => graph.orKeep (graph.bindVariable key index variableKey)
  | bindNamed key index name => graph.orKeep (graph.bindNamed key index name)
  | bindValue key index value => graph.orKeep ((graph.bindValue key index value).map (·.2))
  | clearInput key index => graph.orKeep (graph.clearInput key index)
  | resetInputs key => graph.orKeep (graph.resetInputs key)
  | declareVariable name value => graph.orKeep ((graph.declareVariable name value).map (·.2))
  | addLocalVariable value => (graph.addLocalVariable value).2
  | setVariable name value => graph.orKeep (graph.setVariable name value)
  | setVariableKey key value => graph.orKeep (graph.setVariableKey key value)
  | clearVariables => graph.clearVariables
  | setTime key time => graph.setTime key time
  | reset => graph.reset
  | evaluate timestep => (graph.evaluate timestep).2
  | clone => graph.clone
  | cloneWithVariables table _ => graph.cloneWithVariables table

namespace Graph

/-- The graphs that allowed commands lead to. -/
inductive ReachedBy (allowed : Command α → Prop) : Graph α → Prop
  | new (skeleton : Asset (Skeleton α)) (settings : Settings α) :
      ReachedBy allowed (.ofSkeleton skeleton settings)
  | step {graph : Graph α} (h : ReachedBy allowed graph) {command : Command α} (hallowed : allowed command) :
      ReachedBy allowed (command.run graph)

def Reached (graph : Graph α) : Prop := graph.ReachedBy fun _ => True

/-- An edit that succeeds leads on as its command does. -/
theorem ReachedBy.of_eq_ok {allowed : Command α → Prop} {graph next : Graph α} {edited : Except Error (Graph α)}
    (h : graph.ReachedBy allowed) (command : Command α) (hallowed : allowed command)
    (hrun : command.run graph = graph.orKeep edited) (hedited : edited = .ok next) : next.ReachedBy allowed := by
  have hnext := h.step hallowed
  rw [hrun, hedited] at hnext
  exact hnext

theorem ReachedBy.foldl {allowed : Command α → Prop} {graph : Graph α} (h : graph.ReachedBy allowed)
    {commands : List (Command α)} (hcommands : ∀ command ∈ commands, allowed command) :
    (commands.foldl Command.run graph).ReachedBy allowed := by
  induction commands generalizing graph with
  | nil => exact h
  | cons command commands ih =>
    obtain ⟨hcommand, hcommands⟩ := List.forall_mem_cons.1 hcommands
    exact ih (h.step hcommand) hcommands

theorem ReachedBy.reached {allowed : Command α → Prop} {graph : Graph α} (h : graph.ReachedBy allowed) :
    graph.Reached := by
  induction h with
  | new skeleton settings => exact .new skeleton settings
  | step _ _ ih => exact ih.step trivial

/-- A blend of one clip sampler with itself. -/
def diamond : Graph Binary32 :=
  [.addNode .clipSampler, .addNode .blend, .setOutput (some ⟨1⟩), .bindNode ⟨1⟩ 0 ⟨0⟩,
    .bindNode ⟨1⟩ 1 ⟨0⟩].foldl Command.run (.ofSkeleton oneBone .default)

theorem reachedBy_diamond : diamond.ReachedBy (· ≠ .clearVariables) :=
  (ReachedBy.new _ _).foldl (by simp)

/-- The binding of an input to a node that has no node at its inputs is made. -/
theorem run_bindNode_of_children_eq_nil {graph : Graph α} {key child : NodeKey} {index : Nat}
    (hcheck : graph.checkInput key index = .ok ()) (hchild : graph.nodes.contains child)
    (h : graph.children child = []) (hne : child ≠ key) :
    (Command.bindNode key index child).run graph = graph.bindSlot key index (.node child) := by
  rw [Command.run, bindNode_of_children_eq_nil hcheck hchild h hne]
  rfl

/-- Both inputs of the blend are bound. -/
theorem diamond_eq :
    diamond = (([.addNode .clipSampler, .addNode .blend, .setOutput (some ⟨1⟩)].foldl Command.run
      (.ofSkeleton oneBone .default)).bindSlot ⟨1⟩ 0 (.node ⟨0⟩)).bindSlot ⟨1⟩ 1 (.node ⟨0⟩) := by
  refine Eq.trans (congrArg (Command.run · (.bindNode ⟨1⟩ 1 ⟨0⟩)) ?_)
    (run_bindNode_of_children_eq_nil rfl rfl rfl (by decide))
  exact run_bindNode_of_children_eq_nil rfl rfl rfl (by decide)

theorem output_diamond : diamond.output = some ⟨1⟩ := by
  rw [diamond_eq]
  rfl

theorem node?_diamond : diamond.node? ⟨0⟩ = some (.ofKind .clipSampler) ∧
    diamond.node? ⟨1⟩ = some { Node.ofKind .blend with inputs := [.node ⟨0⟩, .node ⟨0⟩, .unbound] } := by
  rw [diamond_eq]
  exact ⟨rfl, rfl⟩

end Graph
end Armature
