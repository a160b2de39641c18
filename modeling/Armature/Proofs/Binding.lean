import Armature.Graph.Edit
import Mathlib.Logic.Relation
import Mathlib.Order.WellFoundedSet

/-!
# Bindings between nodes

The relation "some input of a node is bound to another node", its cycles, and what can be reached along it.
Acyclic bindings can be followed to an end (`Nodes.Acyclic.wellFounded`), and a new binding closes no cycle
if what it leads to did not reach back (`Nodes.Acyclic.bind`), which is what `Graph.dependsOn` decides
(`Graph.dependsOn_iff`).
-/

namespace Armature

variable {α : Type}

/-- Some input of a node is bound to another node. -/
def Nodes.Binds (nodes : Nodes α) (key child : NodeKey) : Prop :=
  ∃ node, nodes.get? key = some node ∧ Slot.node child ∈ node.inputs

/-- No way along the bindings leads from a node back to itself. -/
def Nodes.Acyclic (nodes : Nodes α) : Prop :=
  ∀ key, ¬ Relation.TransGen nodes.Binds key key

/-- The nodes that inputs are bound to are there. -/
def Nodes.Closed (nodes : Nodes α) : Prop :=
  ∀ key child, nodes.Binds key child → nodes.contains child

namespace Nodes

theorem contains_of_get? {nodes : Nodes α} {key : NodeKey} {node : Node α}
    (h : nodes.get? key = some node) : nodes.contains key := by
  simp [Arena.contains, h]

theorem get?_of_contains {nodes : Nodes α} {key : NodeKey} (h : nodes.contains key) :
    ∃ node, nodes.get? key = some node :=
  Option.isSome_iff_exists.1 h

theorem Binds.contains {nodes : Nodes α} {key child : NodeKey} (h : nodes.Binds key child) :
    nodes.contains key := by
  obtain ⟨node, hnode, -⟩ := h
  exact contains_of_get? hnode

theorem binds_congr {nodes other : Nodes α}
    (h : ∀ key, (other.get? key).map (·.inputs) = (nodes.get? key).map (·.inputs)) (key child : NodeKey) :
    other.Binds key child ↔ nodes.Binds key child := by
  have h := h key
  unfold Binds
  cases hnode : nodes.get? key <;> cases hother : other.get? key <;> rw [hnode, hother] at h <;> simp_all

theorem finite_contains (nodes : Nodes α) : {key | nodes.contains key}.Finite := by
  have h : {key | nodes.contains key} = {key | key ∈ nodes.keys} := by
    ext key
    simp
  rw [h]
  exact List.finite_toSet nodes.keys

theorem Acyclic.mono {nodes other : Nodes α} (h : nodes.Acyclic)
    (hsub : ∀ key child, other.Binds key child → nodes.Binds key child) : other.Acyclic := by
  intro key hcycle
  exact h key (Relation.TransGen.mono hsub _ _ hcycle)

/-- Whoever follows acyclic bindings comes to an end: a way visits no node twice, and there are finitely many. -/
theorem Acyclic.wellFounded {nodes : Nodes α} (h : nodes.Acyclic) :
    WellFounded fun child key => nodes.Binds key child := by
  let below : NodeKey → NodeKey → Prop := Relation.TransGen fun child key => nodes.Binds key child
  have hirrefl : Std.Irrefl below := ⟨fun key hcycle => h key (Relation.transGen_swap.1 hcycle)⟩
  have : IsStrictOrder NodeKey below := { toIrrefl := hirrefl, trans := fun _ _ _ => .trans }
  have hlive := Set.wellFoundedOn_iff.1 (nodes.finite_contains.wellFoundedOn (r := below))
  have hdead : ∀ key, ¬ nodes.contains key → Acc (fun child key => nodes.Binds key child) key := by
    intro key hkey
    exact ⟨key, fun child hchild => absurd hchild.contains hkey⟩
  refine ⟨fun key => ?_⟩
  induction key using hlive.induction with
  | _ key ih =>
    refine ⟨key, fun child hchild => ?_⟩
    by_cases hlive : nodes.contains child
    · exact ih child ⟨Relation.TransGen.single hchild, hlive, hchild.contains⟩
    · exact hdead child hlive

/-- Whoever follows acyclic bindings does not come back: if everything below a node waits, everything below a child of
    it still waits without it. -/
theorem Acyclic.mem_erase {nodes : Nodes α} (h : nodes.Acyclic) {key child : NodeKey} {waiting : List NodeKey}
    (hwaiting : ∀ other, Relation.ReflTransGen nodes.Binds key other → nodes.contains other → other ∈ waiting)
    (hbinds : nodes.Binds key child) :
    ∀ other, Relation.ReflTransGen nodes.Binds child other → nodes.contains other →
      other ∈ waiting.erase key := by
  intro other hother hlive
  have hne : other ≠ key := by
    rintro rfl
    exact h _ (.head' hbinds hother)
  exact (List.mem_erase_of_ne hne).2 (hwaiting other (.head hbinds hother) hlive)

/-- A relation without cycles stays so if one step is added whose end did not lead to its start. -/
theorem acyclic_of_step {r s : NodeKey → NodeKey → Prop} {key child : NodeKey}
    (hacyclic : ∀ a, ¬ Relation.TransGen r a a) (hstep : ∀ a b, s a b → r a b ∨ (a = key ∧ b = child))
    (hback : ¬ Relation.ReflTransGen r child key) : ∀ a, ¬ Relation.TransGen s a a := by
  -- a way in the larger relation either avoids the new step, or goes to its start and on from its end
  have hway : ∀ a b, Relation.TransGen s a b →
      Relation.TransGen r a b ∨ (Relation.ReflTransGen r a key ∧ Relation.ReflTransGen r child b) := by
    intro a b hab
    induction hab with
    | single hab =>
      rcases hstep _ _ hab with hab | ⟨rfl, rfl⟩
      · exact .inl (.single hab)
      · exact .inr ⟨.refl, .refl⟩
    | tail _ hbc ih =>
      rcases hstep _ _ hbc with hbc | ⟨rfl, rfl⟩
      · rcases ih with ih | ⟨hak, hcb⟩
        · exact .inl (ih.tail hbc)
        · exact .inr ⟨hak, hcb.tail hbc⟩
      · rcases ih with ih | ⟨hak, -⟩
        · exact .inr ⟨ih.to_reflTransGen, .refl⟩
        · exact .inr ⟨hak, .refl⟩
  intro a hcycle
  rcases hway a a hcycle with hcycle | ⟨hak, hca⟩
  · exact hacyclic a hcycle
  · exact hback (hca.trans hak)

theorem binds_bind {nodes : Nodes α} {key : NodeKey} {index : Nat} {slot : Slot} {parent child : NodeKey}
    (h : Nodes.Binds (nodes.modify key (·.bind index slot)) parent child) :
    nodes.Binds parent child ∨ (parent = key ∧ slot = .node child) := by
  obtain ⟨node, hnode, hmem⟩ := h
  rw [Arena.get?_modify] at hnode
  split at hnode
  · next heq =>
    obtain ⟨old, hold, rfl⟩ := Option.map_eq_some_iff.1 hnode
    rcases List.mem_or_eq_of_mem_set hmem with hmem | hslot
    · exact .inl ⟨old, hold, hmem⟩
    · exact .inr ⟨heq, hslot.symm⟩
  · exact .inl ⟨node, hnode, hmem⟩

/-- Binding an input closes no cycle if the node that it is bound to does not lead to the node of the input. -/
theorem Acyclic.bind {nodes : Nodes α} (h : nodes.Acyclic) {key : NodeKey} {index : Nat} {slot : Slot}
    (hback : ∀ child, slot = .node child → ¬ Relation.ReflTransGen nodes.Binds child key) :
    Nodes.Acyclic (nodes.modify key (·.bind index slot)) := by
  cases slot with
  | node child =>
    refine acyclic_of_step h (fun a b hab => ?_) (hback child rfl)
    rcases binds_bind hab with hab | ⟨rfl, heq⟩
    · exact .inl hab
    · exact .inr ⟨rfl, (Slot.node.inj heq).symm⟩
  | _ =>
    refine h.mono fun a b hab => ?_
    rcases binds_bind hab with hab | ⟨-, heq⟩
    · exact hab
    · cases heq

end Nodes

namespace Graph

theorem mem_children_iff (graph : Graph α) (key child : NodeKey) :
    child ∈ graph.children key ↔ graph.nodes.Binds key child := by
  have hslot : ∀ slot : Slot, slot.nodeKey? = some child ↔ slot = .node child := by
    intro slot
    cases slot <;> simp [Slot.nodeKey?]
  unfold children node? Nodes.Binds
  cases graph.nodes.get? key <;> simp [hslot]

/-- The search along the inputs finds nothing that cannot be reached along the bindings. -/
theorem reflTransGen_of_mem_reachableFrom {graph : Graph α} {key other : NodeKey}
    (hmem : other ∈ graph.reachableFrom key) : Relation.ReflTransGen graph.nodes.Binds key other := by
  refine forall_mem_depthFirst (p := fun other => Relation.ReflTransGen graph.nodes.Binds key other)
    ?_ ?_ other hmem
  · intro first hfirst
    rw [List.mem_singleton.1 hfirst]
  · intro parent hparent child hchild
    exact hparent.tail ((graph.mem_children_iff parent child).1 hchild)

/-- The search along the inputs finds what can be reached along the bindings. -/
theorem mem_reachableFrom_iff {graph : Graph α} (hclosed : graph.nodes.Closed) {key : NodeKey}
    (hkey : graph.nodes.contains key) (other : NodeKey) :
    other ∈ graph.reachableFrom key ↔ Relation.ReflTransGen graph.nodes.Binds key other := by
  refine ⟨reflTransGen_of_mem_reachableFrom, fun hreach => ?_⟩
  induction hreach with
  | refl => exact mem_depthFirst_of_mem (List.mem_singleton_self key) (by simpa using hkey)
  | tail _ hbinds ih =>
    refine mem_depthFirst_of_next ih ((graph.mem_children_iff _ _).2 hbinds) ?_
    simpa using hclosed _ _ hbinds

/-- A node depends on another if the bindings lead from it to the other. -/
theorem dependsOn_iff {graph : Graph α} (hclosed : graph.nodes.Closed) (key other : NodeKey) :
    graph.dependsOn key other ↔ Relation.ReflTransGen graph.nodes.Binds key other := by
  have hmem : graph.dependsOn key other ↔ key = other ∨ other ∈ graph.reachableFrom key := by
    simp [dependsOn]
  rw [hmem]
  constructor
  · rintro (rfl | hmem)
    · exact .refl
    · exact reflTransGen_of_mem_reachableFrom hmem
  · intro hreach
    rcases Relation.ReflTransGen.cases_head hreach with heq | ⟨child, hbinds, -⟩
    · exact .inl heq
    · exact .inr ((mem_reachableFrom_iff hclosed hbinds.contains other).2 hreach)

end Graph
end Armature
