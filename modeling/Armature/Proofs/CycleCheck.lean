import Armature.Proofs.WellFormed

/-!
# The check for cycles

An input is bound to a node only after a search for the node of the input, from the node that it is to be bound to, in
the graph as it is: what the input was bound to before is still in place. The check is exact all the same
(`Nodes.Acyclic.exists_cycle_bind_iff`). A way that leads back to the node of the input does not leave that node before
its end, since bindings are acyclic, and so does not use the binding that is replaced.
-/

namespace Armature

variable {α : Type}

namespace Nodes

/-- A way along acyclic bindings to a node leaves other nodes alone on the way. -/
theorem Acyclic.reach_avoiding {nodes : Nodes α} (h : nodes.Acyclic) {start target : NodeKey}
    (hreach : Relation.ReflTransGen nodes.Binds start target) :
    Relation.ReflTransGen (fun parent child => parent ≠ target ∧ nodes.Binds parent child) start target := by
  induction hreach using Relation.ReflTransGen.head_induction_on with
  | refl => exact .refl
  | head hbinds hrest ih =>
    refine .head ⟨?_, hbinds⟩ ih
    rintro rfl
    exact h _ (.head' hbinds hrest)

theorem binds_bind_of_ne {nodes : Nodes α} {key parent child : NodeKey} (index : Nat) (slot : Slot)
    (hne : parent ≠ key) (h : nodes.Binds parent child) :
    Nodes.Binds (nodes.modify key (·.bind index slot)) parent child := by
  obtain ⟨node, hnode, hmem⟩ := h
  exact ⟨node, by rw [Arena.get?_modify, if_neg hne, hnode], hmem⟩

theorem binds_bind_self {nodes : Nodes α} {key child : NodeKey} {node : Node α} {index : Nat}
    (hnode : nodes.get? key = some node) (hindex : index < node.inputs.length) :
    Nodes.Binds (nodes.modify key (·.bind index (.node child))) key child := by
  refine ⟨node.bind index (.node child), ?_, List.mem_set hindex _⟩
  rw [Arena.get?_modify, if_pos rfl, hnode, Option.map_some]

/-- Binding an input to a node closes a cycle exactly if that node led to the node of the input before. -/
theorem Acyclic.exists_cycle_bind_iff {nodes : Nodes α} (h : nodes.Acyclic) {key child : NodeKey} {node : Node α}
    {index : Nat} (hnode : nodes.get? key = some node) (hindex : index < node.inputs.length) :
    (∃ other, Relation.TransGen (Nodes.Binds (nodes.modify key (·.bind index (.node child)))) other other) ↔
      Relation.ReflTransGen nodes.Binds child key := by
  constructor
  · rintro ⟨other, hcycle⟩
    by_contra hback
    refine h.bind (fun bound heq => ?_) other hcycle
    obtain rfl := Slot.node.inj heq
    exact hback
  · intro hback
    have hway := Relation.ReflTransGen.mono
      (fun _ _ hstep => binds_bind_of_ne index (.node child) hstep.1 hstep.2) _ _ (h.reach_avoiding hback)
    exact ⟨key, .head' (binds_bind_self hnode hindex) hway⟩

end Nodes

namespace Graph

/-- An edit gives one input of a node another binding and changes nothing else. -/
structure Overwrites (graph edited : Graph α) (key : NodeKey) (index : Nat) (slot : Slot) : Prop where
  input : ∃ node, graph.node? key = some node ∧
    edited.node? key = some { node with inputs := node.inputs.set index slot }
  others : ∀ other, other ≠ key → edited.node? other = graph.node? other
  rest : edited = { graph with nodes := edited.nodes }

variable {graph : Graph α}

theorem overwrites_bindSlot {key : NodeKey} {node : Node α} (hnode : graph.node? key = some node) (index : Nat)
    (slot : Slot) : graph.Overwrites (graph.bindSlot key index slot) key index slot where
  input := by
    refine ⟨node, hnode, ?_⟩
    rw [node?_bindSlot, if_pos rfl, hnode]
    rfl
  others other hother := by rw [node?_bindSlot, if_neg hother]
  rest := rfl

variable [Scalar α]

/-- The binding of an input to a node is refused exactly if the graph with the input bound to it, in place of what it
    was bound to before, has a cycle; otherwise it is made, and nothing else is changed. The search that decides it
    visits no node twice, and finds out whether a way of any length, none included, leads from one node to another. -/
theorem Reached.bindNode_cycle_iff (h : graph.Reached) :
    (∀ key index child node, graph.node? key = some node → index < node.kind.arity → graph.nodes.contains child →
      ∃ edited, graph.Overwrites edited key index (.node child) ∧
        (graph.bindNode key index child = .error .cycle ↔
          ∃ other, Relation.TransGen edited.nodes.Binds other other) ∧
        (graph.bindNode key index child ≠ .error .cycle → graph.bindNode key index child = .ok edited)) ∧
    ∀ start, (graph.reachableFrom start).Nodup ∧ ∀ target,
      graph.dependsOn start target = true ↔ Relation.ReflTransGen graph.nodes.Binds start target := by
  have hwell := h.wellFormed
  refine ⟨fun key index child node hnode hindex hchild => ?_, fun start => ⟨?_, ?_⟩⟩
  · rw [← (hwell.fits key node hnode).arity] at hindex
    refine ⟨graph.bindSlot key index (.node child), overwrites_bindSlot hnode index _, ?_⟩
    have hcycle : (∃ other, Relation.TransGen (graph.bindSlot key index (.node child)).nodes.Binds other other) ↔
        graph.dependsOn child key :=
      (hwell.acyclic.exists_cycle_bind_iff hnode hindex).trans (dependsOn_iff hwell.closed child key).symm
    rw [hcycle, bindNode_eq_ite (checkInput_of_lt hnode hindex) hchild]
    cases graph.dependsOn child key <;> simp
  · exact nodup_depthFirst (Arena.nodup_keys _)
  · exact dependsOn_iff hwell.closed start

/-- In the blend of a clip sampler with itself the speed of the sampler cannot be the blend, but the blend can take the
    sampler once more at an input where it has it. -/
theorem bindNode_cycle_iff_diamond :
    diamond.bindNode ⟨0⟩ 1 ⟨1⟩ = .error .cycle ∧
      ∃ edited, diamond.Overwrites edited ⟨1⟩ 1 (.node ⟨0⟩) ∧ diamond.bindNode ⟨1⟩ 1 ⟨0⟩ = .ok edited := by
  obtain ⟨hbind, -⟩ := reachedBy_diamond.reached.bindNode_cycle_iff
  obtain ⟨hsampler, hblend⟩ := node?_diamond
  constructor
  · obtain ⟨edited, hedited, hcycle, -⟩ := hbind ⟨0⟩ 1 ⟨1⟩ _ hsampler (by decide) (Nodes.contains_of_get? hblend)
    obtain ⟨node, hnode, hinput⟩ := hedited.input
    obtain rfl := Option.some.inj (hsampler.symm.trans hnode)
    have hdown : edited.nodes.Binds ⟨0⟩ ⟨1⟩ := ⟨_, hinput, by decide⟩
    have hup : edited.nodes.Binds ⟨1⟩ ⟨0⟩ := ⟨_, (hedited.others ⟨1⟩ (by decide)).trans hblend, by decide⟩
    exact hcycle.2 ⟨⟨0⟩, .head hdown (.single hup)⟩
  · obtain ⟨edited, hedited, -, hok⟩ := hbind ⟨1⟩ 1 ⟨0⟩ _ hblend (by decide) (Nodes.contains_of_get? hsampler)
    have hchildren : diamond.children ⟨0⟩ = [] := by rw [children, hsampler]; rfl
    have hmade := bindNode_of_children_eq_nil (checkInput_of_lt hblend (by decide : 1 < _))
      (Nodes.contains_of_get? hsampler) hchildren (by decide)
    refine ⟨edited, hedited, hok fun hrefused => ?_⟩
    cases hmade.symm.trans hrefused

end Graph
end Armature
