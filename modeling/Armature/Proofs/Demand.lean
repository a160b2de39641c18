import Armature.Proofs.Plain

/-!
# What a frame demands

The nodes that the computation of a node reads (`Frame.Needs`), and the least set of nodes that has a node and, with
each of its nodes, what that node needs (`Frame.Demand`).
-/

namespace Armature.Frame

variable {α : Type}

/-- The node that a slot is bound to, if its result has the expected type. -/
def typedChild? (nodes : Nodes α) (expected : ResultType) (slot : Slot) : Option NodeKey :=
  slot.nodeKey?.filter fun child => (nodes.get? child).any (·.kind.resultType = expected)

theorem typedChild?_eq_some_iff {nodes : Nodes α} {expected : ResultType} {slot : Slot} {child : NodeKey} :
    typedChild? nodes expected slot = some child ↔
      slot = .node child ∧ ∃ node, nodes.get? child = some node ∧ node.kind.resultType = expected := by
  unfold typedChild?
  cases slot with
  | node other =>
    simp only [Slot.nodeKey?, Option.filter_eq_some_iff, Option.some.injEq, Slot.node.injEq]
    constructor
    · rintro ⟨rfl, hany⟩
      cases hnode : nodes.get? other with
      | none => simp [hnode] at hany
      | some node => exact ⟨rfl, node, rfl, by simpa [hnode] using hany⟩
    · rintro ⟨rfl, node, hnode, htype⟩
      exact ⟨rfl, by simp [hnode, htype]⟩
  | _ => simp [Slot.nodeKey?]

/-- What an input of an expected type sees depends on the kinds of the nodes alone. -/
theorem typedChild?_congr {nodes other : Nodes α}
    (h : ∀ key, (nodes.get? key).map (·.kind) = (other.get? key).map (·.kind)) (expected : ResultType) (slot : Slot) :
    typedChild? nodes expected slot = typedChild? other expected slot := by
  have hany : ∀ child, (nodes.get? child).any (·.kind.resultType = expected) =
      (other.get? child).any (·.kind.resultType = expected) := by
    intro child
    have hkind := congrArg (Option.any (·.resultType = expected)) (h child)
    simpa only [Option.any_map] using hkind
  simp only [typedChild?, hany]

/-- The inputs that the computation of a node reads, with the types that it expects there. Of the two poses of a
    selection it is the selected one alone. -/
def reads (frame : Frame α) (results : Results α) (node : Node α) : List (ResultType × Nat) :=
  match node.kind with
  | .clipSampler => [(.float, 1), (.bool, 2)]
  | .blend | .additiveBlend => [(.pose, 0), (.pose, 1), (.float, 2)]
  | .calculateAdditive => [(.pose, 0), (.pose, 1)]
  | .selectPose =>
    [(.bool, 2), (.pose, if frame.boolInput results (node.input 2) false then 1 else 0)]
  | .bool (.logic .not) => [(.bool, 0)]
  | .bool (.logic _) => [(.bool, 0), (.bool, 1)]
  | .bool (.compare _) => [(.float, 0), (.float, 1)]
  | .float op => if op.isUnary then [(.float, 0)] else [(.float, 0), (.float, 1)]

/-- The computation of a node reads the result of another node. -/
def Needs (frame : Frame α) (nodes : Nodes α) (results : Results α) (key child : NodeKey) : Prop :=
  ∃ node, nodes.get? key = some node ∧ ∃ read ∈ frame.reads results node,
    typedChild? nodes read.1 (node.input read.2) = some child

theorem Needs.binds {frame : Frame α} {nodes : Nodes α} {results : Results α} {key child : NodeKey}
    (h : frame.Needs nodes results key child) : nodes.Binds key child := by
  obtain ⟨node, hnode, read, -, hchild⟩ := h
  exact ⟨node, hnode, mem_inputs_of_input (typedChild?_eq_some_iff.1 hchild).1⟩

/-- What is demanded by whoever reads a node: the least set that has the node and, with each node, what the node
    needs. -/
def Demand (frame : Frame α) (nodes : Nodes α) (results : Results α) (key : NodeKey) : Set NodeKey :=
  {other | Relation.ReflTransGen (frame.Needs nodes results) key other}

/-- What is demanded by some inputs of a node. -/
def DemandOf (frame : Frame α) (nodes : Nodes α) (results : Results α) (node : Node α)
    (reads : List (ResultType × Nat)) : Set NodeKey :=
  {other | ∃ read ∈ reads, ∃ child, typedChild? nodes read.1 (node.input read.2) = some child ∧
    other ∈ frame.Demand nodes results child}

/-- What is needed by what is done is done. -/
def Settled (frame : Frame α) (nodes : Nodes α) (results : Results α) (done : Set NodeKey) : Prop :=
  ∀ key ∈ done, ∀ child, frame.Needs nodes results key child → child ∈ done

variable {frame : Frame α} {nodes : Nodes α} {results : Results α} {done : Set NodeKey}

theorem Settled.union {other : Set NodeKey} (h : frame.Settled nodes results done)
    (hother : frame.Settled nodes results other) : frame.Settled nodes results (done ∪ other) := by
  rintro key (hkey | hkey) child hchild
  · exact .inl (h key hkey child hchild)
  · exact .inr (hother key hkey child hchild)

theorem settled_demand (key : NodeKey) : frame.Settled nodes results (frame.Demand nodes results key) :=
  fun _ hother _ hchild => Relation.ReflTransGen.tail hother hchild

theorem settled_demandOf (node : Node α) (reads : List (ResultType × Nat)) :
    frame.Settled nodes results (frame.DemandOf nodes results node reads) := by
  rintro key ⟨read, hread, child, hchild, hkey⟩ other hother
  exact ⟨read, hread, child, hchild, settled_demand child key hkey other hother⟩

/-- What is settled has all that is demanded by its nodes. -/
theorem Settled.demand_subset (h : frame.Settled nodes results done) {key : NodeKey} (hkey : key ∈ done) :
    frame.Demand nodes results key ⊆ done := by
  intro other hother
  induction hother with
  | refl => exact hkey
  | tail _ hneeds ih => exact h _ ih _ hneeds

theorem demand_eq {key : NodeKey} {node : Node α} (hnode : nodes.get? key = some node) :
    frame.Demand nodes results key =
      {key} ∪ frame.DemandOf nodes results node (frame.reads results node) := by
  ext other
  constructor
  · intro hother
    rcases Relation.ReflTransGen.cases_head hother with rfl | ⟨child, hchild, hother⟩
    · exact .inl rfl
    · obtain ⟨node', hnode', read, hread, hchild⟩ := hchild
      obtain rfl := Option.some.inj (hnode.symm.trans hnode')
      exact .inr ⟨read, hread, child, hchild, hother⟩
  · rintro (rfl | ⟨read, hread, child, hchild, hother⟩)
    · exact Relation.ReflTransGen.refl
    · exact Relation.ReflTransGen.head ⟨node, hnode, read, hread, hchild⟩ hother

theorem demand_eq_of_none {key : NodeKey} (hnode : nodes.get? key = none) :
    frame.Demand nodes results key = {key} := by
  ext other
  constructor
  · intro hother
    rcases Relation.ReflTransGen.cases_head hother with rfl | ⟨child, ⟨node, hnode', -⟩, -⟩
    · rfl
    · rw [hnode] at hnode'
      cases hnode'
  · rintro rfl
    exact Relation.ReflTransGen.refl

theorem demandOf_of_some {node : Node α} {expected : ResultType} {index : Nat} {child : NodeKey}
    (h : typedChild? nodes expected (node.input index) = some child) :
    frame.DemandOf nodes results node [(expected, index)] = frame.Demand nodes results child := by
  ext other
  simp [DemandOf, h]

theorem demandOf_of_none {node : Node α} {expected : ResultType} {index : Nat}
    (h : typedChild? nodes expected (node.input index) = none) :
    frame.DemandOf nodes results node [(expected, index)] = ∅ := by
  ext other
  simp [DemandOf, h]

theorem demandOf_cons_cons (node : Node α) (read next : ResultType × Nat) (reads : List (ResultType × Nat)) :
    frame.DemandOf nodes results node (read :: next :: reads) =
      frame.DemandOf nodes results node [read] ∪ frame.DemandOf nodes results node (next :: reads) := by
  ext other
  simp [DemandOf]

/-- The inputs of a node do not demand the node itself, since bindings are acyclic. -/
theorem notMem_demandOf (hacyclic : nodes.Acyclic) {key : NodeKey} {node : Node α}
    (hnode : nodes.get? key = some node) (reads : List (ResultType × Nat)) :
    key ∉ frame.DemandOf nodes results node reads := by
  rintro ⟨read, -, child, hchild, hkey⟩
  have hbinds : nodes.Binds key child :=
    ⟨node, hnode, mem_inputs_of_input (typedChild?_eq_some_iff.1 hchild).1⟩
  have hback : Relation.ReflTransGen nodes.Binds child key :=
    Relation.ReflTransGen.mono (fun _ _ hneeds => hneeds.binds) _ _ hkey
  exact hacyclic key (Relation.TransGen.head' hbinds hback)

end Armature.Frame
