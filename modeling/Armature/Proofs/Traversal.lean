import Armature.Proofs.Demand

/-!
# The traversal of a frame

How the memoizing traversal goes through the nodes. At any moment of a frame some nodes are done and the others are
as they were before the frame (`Frame.Progress`); a node that is done holds what the plain semantics gives it, has
the stamp of the frame and one more evaluation (`Frame.finish`). A visit of a node leads from one such moment to
another, in which exactly what the node demands has been added to what is done (`Frame.runs_visit`).
-/

namespace Armature.Frame

variable {α : Type} [Scalar α]

/-- What a node remembers after its computation, if its inputs read some results. -/
def stateAfter (frame : Frame α) (results : Results α) (node : Node α) : NodeState α :=
  match node.kind with
  | .clipSampler => .sampler (frame.nextPlayback results node) (frame.sampledPose node)
  | _ =>
    match frame.operation results node with
    | .pose p => .pose p
    | .bool b => .bool b
    | .float x => .float x

def finish (frame : Frame α) (results : Results α) (node : Node α) : Node α :=
  { node with
    state := frame.stateAfter results node
    lastFrame := frame.number
    evaluations := node.evaluations + 1 }

@[simp] theorem kind_finish (frame : Frame α) (results : Results α) (node : Node α) :
    (frame.finish results node).kind = node.kind := rfl

@[simp] theorem inputs_finish (frame : Frame α) (results : Results α) (node : Node α) :
    (frame.finish results node).inputs = node.inputs := rfl

theorem result_finish (frame : Frame α) (results : Results α) (node : Node α) :
    (frame.finish results node).result = frame.operation results node := by
  cases hkind : node.kind with
  | bool op => cases op <;> simp [Node.result, finish, stateAfter, operation, hkind, NodeKind.resultType, Node.boolResult]
  | _ =>
    simp [Node.result, finish, stateAfter, operation, hkind, NodeKind.resultType, Node.pose, Node.floatResult]

/-- A moment of a frame: some nodes are done, and the others are as they were before the frame. No node has been added. -/
structure Progress (frame : Frame α) (nodes : Nodes α) (results : Results α) (done : Set NodeKey)
    (now : Nodes α) : Prop where
  finished : ∀ key ∈ done, now.get? key = (nodes.get? key).map (frame.finish results)
  untouched : ∀ key ∉ done, now.get? key = nodes.get? key
  issued : now.issued = nodes.issued

/-- A computation leads from every moment with some nodes done to one with other nodes done, and has a value. -/
def Runs {β : Type} (frame : Frame α) (nodes : Nodes α) (results : Results α) (m : Evaluation α β)
    (done : Set NodeKey) (value : β) (done' : Set NodeKey) : Prop :=
  ∀ now, frame.Progress nodes results done now →
    ∃ now', m.run now = some (value, now') ∧ frame.Progress nodes results done' now'

variable {frame : Frame α} {nodes : Nodes α} {results : Results α} {done : Set NodeKey}

/-! ## Moments -/

theorem progress_empty : frame.Progress nodes results ∅ nodes :=
  ⟨fun _ hkey => hkey.elim, fun _ _ => rfl, rfl⟩

/-- A traversal adds and removes no nodes, and keeps their kinds. -/
theorem Progress.kind {now : Nodes α} (h : frame.Progress nodes results done now) (key : NodeKey) :
    (now.get? key).map (·.kind) = (nodes.get? key).map (·.kind) := by
  by_cases hkey : key ∈ done
  · rw [h.finished key hkey, Option.map_map]
    rfl
  · rw [h.untouched key hkey]

theorem Progress.get?_eq_none {now : Nodes α} (h : frame.Progress nodes results done now) {key : NodeKey}
    (hnone : nodes.get? key = none) : now.get? key = none := by
  have hkind := h.kind key
  rwa [hnone, Option.map_none, Option.map_eq_none_iff] at hkind

/-! ## Computations -/

section Runs

variable {β γ : Type} {mid done' : Set NodeKey}

omit [Scalar α] in
theorem run_fetch (key : NodeKey) (now : Nodes α) :
    (fetch key : Evaluation α (Node α)).run now = (now.get? key).map fun node => (node, now) := by
  cases h : now.get? key <;> simp [fetch, h]

omit [Scalar α] in
theorem run_update {key : NodeKey} {f : Node α → Node α} {now : Nodes α} {node : Node α}
    (hnode : now.get? key = some node) : (update key f).run now = some ((), now.modify key f) := by
  rw [update, StateT.run_bind, run_fetch, hnode]
  rfl

theorem Runs.pure (value : β) : frame.Runs nodes results (Pure.pure value) done value done :=
  fun now h => ⟨now, rfl, h⟩

theorem Runs.bind {m : Evaluation α β} {k : β → Evaluation α γ} {b : β} {c : γ}
    (hm : frame.Runs nodes results m done b mid) (hk : frame.Runs nodes results (k b) mid c done') :
    frame.Runs nodes results (m >>= k) done c done' := by
  intro now h
  obtain ⟨now', hrun, h'⟩ := hm now h
  obtain ⟨now'', hrun', h''⟩ := hk now' h'
  refine ⟨now'', ?_, h''⟩
  rw [StateT.run_bind, hrun]
  exact hrun'

theorem runs_fetch_of_mem {key : NodeKey} {node : Node α} (hnode : nodes.get? key = some node)
    (hkey : key ∈ done) : frame.Runs nodes results (fetch key) done (frame.finish results node) done := by
  intro now h
  refine ⟨now, ?_, h⟩
  rw [run_fetch, h.finished key hkey, hnode]
  rfl

theorem runs_fetch_of_notMem {key : NodeKey} {node : Node α} (hnode : nodes.get? key = some node)
    (hkey : key ∉ done) : frame.Runs nodes results (fetch key) done node done := by
  intro now h
  refine ⟨now, ?_, h⟩
  rw [run_fetch, h.untouched key hkey, hnode]
  rfl

/-- Storing what the computation of a node gave makes the node done. -/
theorem runs_update {key : NodeKey} {node : Node α} (hnode : nodes.get? key = some node) (hkey : key ∉ done) :
    frame.Runs nodes results
      (update key fun old =>
        { old with
          state := frame.stateAfter results node
          lastFrame := frame.number
          evaluations := old.evaluations + 1 }) done () (done ∪ {key}) := by
  intro now h
  have hnow : now.get? key = some node := (h.untouched key hkey).trans hnode
  refine ⟨_, run_update hnow, ?_, ?_, h.issued⟩
  · intro other hother
    rw [Arena.get?_modify]
    by_cases heq : other = key
    · rw [if_pos heq, heq, hnow, hnode]
      rfl
    · rw [if_neg heq]
      exact h.finished other (hother.resolve_right heq)
  · intro other hother
    have hne : other ≠ key := fun heq => hother (.inr heq)
    rw [Arena.get?_modify, if_neg hne]
    exact h.untouched other fun hdone => hother (.inl hdone)

/-! ## Inputs

What follows is about a node whose inputs can be visited: a visit of the node at an input adds what that node demands
to what is done. -/

variable {node : Node α} {go : NodeKey → Evaluation α Unit}

/-- A visit of any node that an input of a node is bound to adds what that node demands. -/
def Visitable (frame : Frame α) (nodes : Nodes α) (results : Results α) (go : NodeKey → Evaluation α Unit)
    (node : Node α) : Prop :=
  ∀ child, Slot.node child ∈ node.inputs → ∀ done, frame.Settled nodes results done →
    frame.Runs nodes results (go child) done () (done ∪ frame.Demand nodes results child)

omit [Scalar α] in
theorem run_pull (go : NodeKey → Evaluation α Unit) (expected : ResultType) (slot : Slot) (now : Nodes α) :
    (pull go expected slot).run now =
      match typedChild? now expected slot with
      | some child => ((go child).run now).map fun visited => (some child, visited.2)
      | none => some (none, now) := by
  cases slot with
  | node child =>
    rw [pull]
    cases hchild : now.get? child with
    | none => simp [typedChild?, Slot.nodeKey?, Option.filter_some, hchild]
    | some node =>
      by_cases htype : node.kind.resultType = expected
      · simp [typedChild?, Slot.nodeKey?, Option.filter_some, hchild, htype]
      · simp [typedChild?, Slot.nodeKey?, Option.filter_some, hchild, htype]
  | _ => rfl

/-- The node at an input, if it is of the expected type, is the same at every moment of a frame. -/
theorem Progress.typedChild? {now : Nodes α} (h : frame.Progress nodes results done now)
    (expected : ResultType) (slot : Slot) :
    Frame.typedChild? now expected slot = Frame.typedChild? nodes expected slot :=
  typedChild?_congr h.kind expected slot

/-- Pulling an input adds what the node at the input demands, if it is of the expected type. -/
theorem runs_pull (hvisit : frame.Visitable nodes results go node) (hdone : frame.Settled nodes results done)
    (expected : ResultType) (index : Nat) :
    frame.Runs nodes results (pull go expected (node.input index)) done
      (typedChild? nodes expected (node.input index))
      (done ∪ frame.DemandOf nodes results node [(expected, index)]) := by
  intro now h
  rw [run_pull, h.typedChild?]
  cases hchild : typedChild? nodes expected (node.input index) with
  | some child =>
    have hslot : node.input index = .node child := (typedChild?_eq_some_iff.1 hchild).1
    obtain ⟨now', hrun, h'⟩ := hvisit child (mem_inputs_of_input hslot) done hdone now h
    refine ⟨now', by simp [hrun], ?_⟩
    rw [demandOf_of_some hchild]
    exact h'
  | none =>
    refine ⟨now, rfl, ?_⟩
    rw [demandOf_of_none hchild, Set.union_empty]
    exact h

/-- Every node has the result of its operation. -/
def Solves (frame : Frame α) (nodes : Nodes α) (results : Results α) : Prop :=
  ∀ key, results key = (nodes.get? key).map (frame.operation results)

theorem Solves.eq_result (hsolves : frame.Solves nodes results) {expected : ResultType} {slot : Slot}
    {child : NodeKey} (hchild : typedChild? nodes expected slot = some child) :
    ∃ childNode, slot = .node child ∧ nodes.get? child = some childNode ∧
      childNode.kind.resultType = expected ∧ results child = some (frame.finish results childNode).result := by
  obtain ⟨hslot, childNode, hnode, htype⟩ := typedChild?_eq_some_iff.1 hchild
  refine ⟨childNode, hslot, hnode, htype, ?_⟩
  rw [hsolves child, hnode, result_finish]
  rfl

/-- A node that is not of the expected type has no result of the type. -/
theorem Solves.bind_eq_none (hsolves : frame.Solves nodes results) {expected : ResultType} {child : NodeKey}
    (hchild : typedChild? nodes expected (.node child) = none) {cast : Result α → Option β}
    (hcast : ∀ result, result.type ≠ expected → cast result = none) : (results child).bind cast = none := by
  cases hresult : results child with
  | none => rfl
  | some result =>
    refine hcast result fun htype => ?_
    rw [hsolves child] at hresult
    obtain ⟨childNode, hnode, rfl⟩ := Option.map_eq_some_iff.1 hresult
    rw [type_operation] at htype
    rw [typedChild?_eq_some_iff.2 ⟨rfl, childNode, hnode, htype⟩] at hchild
    cases hchild

theorem Solves.poseInput_of_some (hsolves : frame.Solves nodes results) {slot : Slot} {child : NodeKey}
    (hchild : typedChild? nodes .pose slot = some child) :
    ∃ childNode, nodes.get? child = some childNode ∧
      poseInput results slot = some (frame.finish results childNode).pose := by
  obtain ⟨childNode, rfl, hnode, htype, hresult⟩ := hsolves.eq_result hchild
  exact ⟨childNode, hnode, by simp [poseInput, hresult, Node.result, htype, Result.pose?]⟩

theorem Solves.poseInput_of_none (hsolves : frame.Solves nodes results) {slot : Slot}
    (hchild : typedChild? nodes .pose slot = none) : poseInput results slot = none := by
  cases slot with
  | node child =>
    refine hsolves.bind_eq_none hchild fun result htype => ?_
    cases result with
    | pose p => exact absurd rfl htype
    | _ => rfl
  | _ => rfl

theorem Solves.boolInput_of_none (hsolves : frame.Solves nodes results) {slot : Slot}
    (hchild : typedChild? nodes .bool slot = none) (default : Bool) :
    frame.boolInput results slot default = ((frame.bound? slot).bind (·.value.asBool?)).getD default := by
  cases slot with
  | node child =>
    have hnone : (results child).bind (·.bool?) = none := by
      refine hsolves.bind_eq_none hchild fun result htype => ?_
      cases result with
      | bool b => exact absurd rfl htype
      | _ => rfl
    rw [boolInput, hnone]
    rfl
  | _ => rfl

theorem Solves.floatInput_of_none (hsolves : frame.Solves nodes results) {slot : Slot}
    (hchild : typedChild? nodes .float slot = none) (default : α) :
    frame.floatInput results slot default = ((frame.bound? slot).bind (·.value.asFloat?)).getD default := by
  cases slot with
  | node child =>
    have hnone : (results child).bind (·.float?) = none := by
      refine hsolves.bind_eq_none hchild fun result htype => ?_
      cases result with
      | float x => exact absurd rfl htype
      | _ => rfl
    rw [floatInput, hnone]
    rfl
  | _ => rfl

omit [Scalar α] in
/-- The node at an input is done once the input has been pulled. -/
theorem mem_of_typedChild? {read : ResultType × Nat} {child : NodeKey}
    (hchild : typedChild? nodes read.1 (node.input read.2) = some child) :
    child ∈ frame.DemandOf nodes results node [read] := by
  rw [demandOf_of_some hchild]
  exact Relation.ReflTransGen.refl

theorem runs_readBool (hsolves : frame.Solves nodes results) (hvisit : frame.Visitable nodes results go node)
    (hdone : frame.Settled nodes results done) (index : Nat) (default : Bool) :
    frame.Runs nodes results (frame.readBool go (node.input index) default) done
      (frame.boolInput results (node.input index) default)
      (done ∪ frame.DemandOf nodes results node [(.bool, index)]) := by
  rw [readBool]
  refine (runs_pull hvisit hdone .bool index).bind ?_
  cases hchild : typedChild? nodes .bool (node.input index) with
  | some child =>
    obtain ⟨childNode, hslot, hnode, htype, hresult⟩ := hsolves.eq_result hchild
    have hvalue : frame.boolInput results (node.input index) default =
        (frame.finish results childNode).boolResult := by
      simp [hslot, boolInput, hresult, Node.result, htype, Result.bool?]
    rw [hvalue]
    exact (runs_fetch_of_mem hnode (.inr (mem_of_typedChild? hchild))).bind (Runs.pure _)
  | none =>
    rw [hsolves.boolInput_of_none hchild]
    exact Runs.pure _

theorem runs_readFloat (hsolves : frame.Solves nodes results) (hvisit : frame.Visitable nodes results go node)
    (hdone : frame.Settled nodes results done) (index : Nat) (default : α) :
    frame.Runs nodes results (frame.readFloat go (node.input index) default) done
      (frame.floatInput results (node.input index) default)
      (done ∪ frame.DemandOf nodes results node [(.float, index)]) := by
  rw [readFloat]
  refine (runs_pull hvisit hdone .float index).bind ?_
  cases hchild : typedChild? nodes .float (node.input index) with
  | some child =>
    obtain ⟨childNode, hslot, hnode, htype, hresult⟩ := hsolves.eq_result hchild
    have hvalue : frame.floatInput results (node.input index) default =
        (frame.finish results childNode).floatResult := by
      simp [hslot, floatInput, hresult, Node.result, htype, Result.float?]
    rw [hvalue]
    exact (runs_fetch_of_mem hnode (.inr (mem_of_typedChild? hchild))).bind (Runs.pure _)
  | none =>
    rw [hsolves.floatInput_of_none hchild]
    exact Runs.pure _

/-- Two poses that are done are combined as the plain semantics combines them. -/
theorem runs_combine (hsolves : frame.Solves nodes results) (f : Pose α → Pose α → Pose α) {i j : Nat}
    (hi : frame.DemandOf nodes results node [(.pose, i)] ⊆ done)
    (hj : frame.DemandOf nodes results node [(.pose, j)] ⊆ done) :
    frame.Runs nodes results
      (combine f (typedChild? nodes .pose (node.input i)) (typedChild? nodes .pose (node.input j))) done
      (both f (poseInput results (node.input i)) (poseInput results (node.input j))) done := by
  cases ha : typedChild? nodes .pose (node.input i) with
  | none =>
    rw [hsolves.poseInput_of_none ha]
    exact Runs.pure _
  | some a =>
    obtain ⟨aNode, haNode, haPose⟩ := hsolves.poseInput_of_some ha
    cases hb : typedChild? nodes .pose (node.input j) with
    | none =>
      rw [hsolves.poseInput_of_none hb, haPose]
      exact Runs.pure _
    | some b =>
      obtain ⟨bNode, hbNode, hbPose⟩ := hsolves.poseInput_of_some hb
      rw [haPose, hbPose]
      refine (runs_fetch_of_mem haNode (hi (mem_of_typedChild? ha))).bind ?_
      exact (runs_fetch_of_mem hbNode (hj (mem_of_typedChild? hb))).bind (Runs.pure _)

/-- A sampler goes on where the plain semantics says. -/
theorem settle_switch (playback : Playback α) (clip : Asset (Clip α)) :
    (playback.switch (some clip)).settle = ⟨startTime playback clip, some clip⟩ := by
  unfold Playback.switch Playback.settle startTime
  cases hlast : playback.clip with
  | none => simp [Asset.same]
  | some last =>
    by_cases hsame : last.id = clip.id
    · by_cases hvalid : clip.value.isValidTime playback.time <;> simp [Asset.same, hsame, hvalid]
    · simp [Asset.same, hsame]

/-- Playing a clip leaves a sampler as the plain semantics says. -/
theorem playClip_eq (frame : Frame α) (results : Results α) (node : Node α) :
    frame.playClip (node.playback?.getD .idle) (frame.readClip (node.input 0))
      (frame.floatInput results (node.input 1) 1) (frame.boolInput results (node.input 2) true) =
    .sampler (frame.nextPlayback results node) (frame.sampledPose node) := by
  rw [playClip, readClip_eq]
  cases h : frame.clipInput (node.input 0) with
  | none => simp [nextPlayback, sampledPose, h, Playback.switch, Playback.settle, Playback.pose]
  | some clip =>
    simp [nextPlayback, sampledPose, h, settle_switch, Playback.advance, Playback.pose, Settings.ticksPerSecond]

/-! ## Nodes -/

/-- A mix brings both poses and the weight up to date. -/
theorem runs_mix (hsolves : frame.Solves nodes results) (hvisit : frame.Visitable nodes results go node)
    (hdone : frame.Settled nodes results done) (f : Pose α → Pose α → BoneTree α → α → Pose α) :
    frame.Runs nodes results (frame.mix go node f) done
      (both (f · · frame.tree (frame.weightInput results (node.input 2)))
        (poseInput results (node.input 0)) (poseInput results (node.input 1)))
      (done ∪ frame.DemandOf nodes results node [(.pose, 0), (.pose, 1), (.float, 2)]) := by
  simp only [demandOf_cons_cons, ← Set.union_assoc]
  have hfirst := hdone.union (settled_demandOf node [(.pose, 0)])
  have hsecond := hfirst.union (settled_demandOf node [(.pose, 1)])
  refine (runs_pull hvisit hdone .pose 0).bind ((runs_pull hvisit hfirst .pose 1).bind ?_)
  refine (runs_readFloat hsolves hvisit hsecond 2 0).bind (runs_combine hsolves _ ?_ ?_)
  · exact fun _ hmem => .inl (.inl (.inr hmem))
  · exact fun _ hmem => .inl (.inr hmem)

/-- The computation of a node brings what its inputs demand up to date, and gives what the plain semantics says.
    There is a lemma for each kind of node. -/
def Computes (frame : Frame α) (nodes : Nodes α) (results : Results α) (go : NodeKey → Evaluation α Unit)
    (key : NodeKey) (node : Node α) (done : Set NodeKey) : Prop :=
  frame.Runs nodes results (frame.compute go key node) done (frame.stateAfter results node)
    (done ∪ frame.DemandOf nodes results node (frame.reads results node))

omit [Scalar α] in
theorem Settled.read (hdone : frame.Settled nodes results done) (node : Node α) (read : ResultType × Nat) :
    frame.Settled nodes results (done ∪ frame.DemandOf nodes results node [read]) :=
  hdone.union (settled_demandOf node [read])

theorem computes_clipSampler (hsolves : frame.Solves nodes results)
    (hvisit : frame.Visitable nodes results go node) (hdone : frame.Settled nodes results done) {key : NodeKey}
    (hnode : nodes.get? key = some node)
    (hkey : key ∉ done ∪ frame.DemandOf nodes results node (frame.reads results node))
    (hkind : node.kind = .clipSampler) : frame.Computes nodes results go key node done := by
  have hreads : frame.reads results node = [(.float, 1), (.bool, 2)] := by simp [reads, hkind]
  rw [hreads] at hkey
  rw [Computes, hreads, compute, hkind]
  simp only [demandOf_cons_cons, ← Set.union_assoc] at hkey ⊢
  refine (runs_readFloat hsolves hvisit hdone 1 1).bind ?_
  refine (runs_readBool hsolves hvisit (hdone.read node _) 2 true).bind ?_
  -- the clip is played from the playback that the sampler had before the frame
  refine (runs_fetch_of_notMem hnode hkey).bind ?_
  rw [playClip_eq, stateAfter, hkind]
  exact Runs.pure _

theorem computes_calculateAdditive (hsolves : frame.Solves nodes results)
    (hvisit : frame.Visitable nodes results go node) (hdone : frame.Settled nodes results done) (key : NodeKey)
    (hkind : node.kind = .calculateAdditive) : frame.Computes nodes results go key node done := by
  have hreads : frame.reads results node = [(.pose, 0), (.pose, 1)] := by simp [reads, hkind]
  rw [Computes, hreads, compute, stateAfter, operation, hkind]
  simp only [demandOf_cons_cons, ← Set.union_assoc]
  refine (runs_pull hvisit hdone .pose 0).bind ?_
  refine (runs_pull hvisit (hdone.read node _) .pose 1).bind ?_
  refine (runs_combine hsolves _ ?_ ?_).bind (Runs.pure _)
  · exact fun _ hmem => .inl (.inr hmem)
  · exact fun _ hmem => .inr hmem

theorem computes_selectPose (hsolves : frame.Solves nodes results)
    (hvisit : frame.Visitable nodes results go node) (hdone : frame.Settled nodes results done) (key : NodeKey)
    (hkind : node.kind = .selectPose) : frame.Computes nodes results go key node done := by
  have hreads : frame.reads results node =
      [(.bool, 2), (.pose, if frame.boolInput results (node.input 2) false then 1 else 0)] := by
    simp [reads, hkind]
  rw [Computes, hreads, compute, stateAfter, operation, hkind]
  simp only [demandOf_cons_cons, ← Set.union_assoc]
  refine (runs_readBool hsolves hvisit hdone 2 false).bind ?_
  refine (runs_pull hvisit (hdone.read node _) .pose _).bind ?_
  cases hchild : typedChild? nodes .pose
      (node.input (if frame.boolInput results (node.input 2) false then 1 else 0)) with
  | some child =>
    obtain ⟨childNode, hchildNode, hpose⟩ := hsolves.poseInput_of_some hchild
    simp only [hpose]
    exact (runs_fetch_of_mem hchildNode (.inr (mem_of_typedChild? hchild))).bind (Runs.pure _)
  | none =>
    simp only [hsolves.poseInput_of_none hchild]
    exact Runs.pure _

theorem computes_logic (hsolves : frame.Solves nodes results) (hvisit : frame.Visitable nodes results go node)
    (hdone : frame.Settled nodes results done) (key : NodeKey) {op : LogicOp}
    (hkind : node.kind = .bool (.logic op)) : frame.Computes nodes results go key node done := by
  have hfirst := runs_readBool hsolves hvisit hdone 0 false
  have hsecond := runs_readBool hsolves hvisit (hdone.read node (.bool, 0)) 1 false
  by_cases hnot : op = .not
  · subst hnot
    have hreads : frame.reads results node = [(.bool, 0)] := by simp [reads, hkind]
    rw [Computes, hreads, compute, stateAfter, operation, hkind]
    exact hfirst.bind (Runs.pure _)
  · have hreads : frame.reads results node = [(.bool, 0), (.bool, 1)] := by
      cases op <;> simp_all [reads]
    rw [Computes, hreads, compute, stateAfter, operation, hkind]
    simp only [demandOf_cons_cons, ← Set.union_assoc]
    cases op with
    | not => exact absurd rfl hnot
    | _ => exact hfirst.bind (hsecond.bind (Runs.pure _))

theorem computes_compare (hsolves : frame.Solves nodes results) (hvisit : frame.Visitable nodes results go node)
    (hdone : frame.Settled nodes results done) (key : NodeKey) {op : Comparison}
    (hkind : node.kind = .bool (.compare op)) : frame.Computes nodes results go key node done := by
  have hreads : frame.reads results node = [(.float, 0), (.float, 1)] := by simp [reads, hkind]
  rw [Computes, hreads, compute, stateAfter, operation, hkind]
  simp only [demandOf_cons_cons, ← Set.union_assoc]
  refine (runs_readFloat hsolves hvisit hdone 0 0).bind ?_
  exact (runs_readFloat hsolves hvisit (hdone.read node _) 1 0).bind (Runs.pure _)

theorem computes_float (hsolves : frame.Solves nodes results) (hvisit : frame.Visitable nodes results go node)
    (hdone : frame.Settled nodes results done) (key : NodeKey) {op : FloatOp} (hkind : node.kind = .float op) :
    frame.Computes nodes results go key node done := by
  have hfirst := runs_readFloat hsolves hvisit hdone 0 0
  have hsecond := runs_readFloat hsolves hvisit (hdone.read node (.float, 0)) 1 0
  by_cases hunary : op.isUnary
  · have hreads : frame.reads results node = [(.float, 0)] := by simp [reads, hkind, hunary]
    -- an operator of one argument gives the same whatever stands for the other
    have hrhs : ∀ a b c : α, op.apply a b = op.apply a c := by
      cases op <;> simp_all [FloatOp.isUnary, FloatOp.apply]
    rw [Computes, hreads, compute, stateAfter, operation, hkind]
    refine hfirst.bind ?_
    simp only [hunary, if_true]
    rw [hrhs _ 0]
    exact Runs.pure _
  · have hreads : frame.reads results node = [(.float, 0), (.float, 1)] := by simp [reads, hkind, hunary]
    rw [Computes, hreads, compute, stateAfter, operation, hkind]
    simp only [demandOf_cons_cons, ← Set.union_assoc]
    refine hfirst.bind ?_
    rw [if_neg hunary]
    exact hsecond.bind (Runs.pure _)

/-- Every node whose inputs can be visited is computed as the plain semantics says. -/
theorem computes (hsolves : frame.Solves nodes results) (hvisit : frame.Visitable nodes results go node)
    (hdone : frame.Settled nodes results done) {key : NodeKey} (hnode : nodes.get? key = some node)
    (hkey : key ∉ done ∪ frame.DemandOf nodes results node (frame.reads results node)) :
    frame.Computes nodes results go key node done := by
  cases hkind : node.kind with
  | clipSampler => exact computes_clipSampler hsolves hvisit hdone hnode hkey hkind
  | blend | additiveBlend =>
    have hreads : frame.reads results node = [(.pose, 0), (.pose, 1), (.float, 2)] := by simp [reads, hkind]
    rw [Computes, hreads, compute, stateAfter, operation, hkind]
    exact (runs_mix hsolves hvisit hdone _).bind (Runs.pure _)
  | calculateAdditive => exact computes_calculateAdditive hsolves hvisit hdone key hkind
  | selectPose => exact computes_selectPose hsolves hvisit hdone key hkind
  | bool op =>
    cases op with
    | logic op => exact computes_logic hsolves hvisit hdone key hkind
    | compare op => exact computes_compare hsolves hvisit hdone key hkind
  | float op => exact computes_float hsolves hvisit hdone key hkind

end Runs

/-! ## Visits -/

theorem run_visit (frame : Frame α) (waiting : List NodeKey) (key : NodeKey) (now : Nodes α) :
    (frame.visit waiting key).run now =
      match now.get? key with
      | none => some ((), now)
      | some node =>
        if frame.number ≤ node.lastFrame then some ((), now)
        else if key ∈ waiting then (do
          let state ← frame.compute (frame.visit (waiting.erase key)) key node
          update key fun old =>
            { old with state, lastFrame := frame.number, evaluations := old.evaluations + 1 }).run now
        else none := by
  rw [visit]
  cases hnode : now.get? key with
  | none => simp [hnode]
  | some node =>
    by_cases hstamp : frame.number ≤ node.lastFrame
    · simp [hnode, hstamp]
    · by_cases hkey : key ∈ waiting
      · simp [hnode, hstamp, hkey]
      · simp [hnode, hstamp, hkey]

section Visits

variable {node : Node α} {key : NodeKey} {waiting : List NodeKey}

theorem runs_visit_of_none (hnode : nodes.get? key = none) :
    frame.Runs nodes results (frame.visit waiting key) done () (done ∪ frame.Demand nodes results key) := by
  intro now h
  have hnow := h.get?_eq_none hnode
  refine ⟨now, by rw [run_visit, hnow], ?_⟩
  rw [demand_eq_of_none hnode]
  refine ⟨?_, fun other hother => h.untouched other fun hmem => hother (.inl hmem), h.issued⟩
  rintro other (hother | rfl)
  · exact h.finished other hother
  · rw [hnow, hnode]
    rfl

/-- A node that is done has the stamp of the frame, and what it demands is done: a visit changes nothing. -/
theorem runs_visit_of_mem (hdone : frame.Settled nodes results done) (hnode : nodes.get? key = some node)
    (hkey : key ∈ done) :
    frame.Runs nodes results (frame.visit waiting key) done () (done ∪ frame.Demand nodes results key) := by
  intro now h
  have hnow : now.get? key = some (frame.finish results node) := by
    rw [h.finished key hkey, hnode]
    rfl
  rw [Set.union_eq_self_of_subset_right (hdone.demand_subset hkey)]
  refine ⟨now, ?_, h⟩
  rw [run_visit, hnow]
  exact if_pos (Nat.le_refl _)

/-- A node that is not done is computed by a visit, if its inputs can be visited. -/
theorem runs_visit_of_notMem (hacyclic : nodes.Acyclic) (hsolves : frame.Solves nodes results)
    (hdone : frame.Settled nodes results done) (hnode : nodes.get? key = some node) (hkey : key ∉ done)
    (hstamp : node.lastFrame < frame.number) (hwaiting : key ∈ waiting)
    (hvisit : frame.Visitable nodes results (frame.visit (waiting.erase key)) node) :
    frame.Runs nodes results (frame.visit waiting key) done () (done ∪ frame.Demand nodes results key) := by
  intro now h
  have hnow : now.get? key = some node := (h.untouched key hkey).trans hnode
  have hnot : key ∉ done ∪ frame.DemandOf nodes results node (frame.reads results node) := by
    rintro (hmem | hmem)
    · exact hkey hmem
    · exact notMem_demandOf hacyclic hnode _ hmem
  have hrun : frame.Runs nodes results (do
      let state ← frame.compute (frame.visit (waiting.erase key)) key node
      update key fun old =>
        { old with state, lastFrame := frame.number, evaluations := old.evaluations + 1 }) done ()
      (done ∪ frame.DemandOf nodes results node (frame.reads results node) ∪ {key}) :=
    (computes hsolves hvisit hdone hnode hnot).bind (runs_update hnode hnot)
  obtain ⟨now', hrun, h'⟩ := hrun now h
  rw [demand_eq hnode, Set.union_comm {key}, ← Set.union_assoc]
  refine ⟨now', ?_, h'⟩
  rw [run_visit, hnow]
  simp only [if_neg (Nat.not_le.2 hstamp), if_pos hwaiting]
  exact hrun

end Visits

/-- A visit of a node brings what the node demands up to date, and changes nothing else. It comes to an end because
    bindings are acyclic: while the inputs of a node are visited, the node itself is not met. -/
theorem runs_visit (hacyclic : nodes.Acyclic) (hsolves : frame.Solves nodes results)
    (hstamp : ∀ key node, nodes.get? key = some node → node.lastFrame < frame.number) (key : NodeKey)
    (hdone : frame.Settled nodes results done) {waiting : List NodeKey}
    (hwaiting : ∀ other, Relation.ReflTransGen nodes.Binds key other → nodes.contains other → other ∈ waiting) :
    frame.Runs nodes results (frame.visit waiting key) done () (done ∪ frame.Demand nodes results key) := by
  -- along the bindings; what is done and what waits differ from one node to the next
  induction key using hacyclic.wellFounded.induction generalizing done waiting with
  | _ key ih =>
    cases hnode : nodes.get? key with
    | none => exact runs_visit_of_none hnode
    | some node =>
      by_cases hkey : key ∈ done
      · exact runs_visit_of_mem hdone hnode hkey
      · have hmem : key ∈ waiting := hwaiting key .refl (Nodes.contains_of_get? hnode)
        refine runs_visit_of_notMem hacyclic hsolves hdone hnode hkey (hstamp key node hnode) hmem ?_
        intro child hchild _ hdone
        have hbinds : nodes.Binds key child := ⟨node, hnode, hchild⟩
        exact ih child hbinds hdone (hacyclic.mem_erase hwaiting hbinds)

end Armature.Frame

namespace Armature.Graph

variable {α : Type} [Scalar α]

/-- What the nodes of a graph mean in its next frame. -/
def nextMeaning (graph : Graph α) (h : graph.nodes.Acyclic) (timestep : α) : Frame.Results α :=
  (graph.nextFrame timestep).meaning graph.nodes h

/-- What the output of a graph demands in its next frame; nothing without an output. -/
def nextDemand (graph : Graph α) (h : graph.nodes.Acyclic) (timestep : α) : Set NodeKey :=
  {key | ∃ output, graph.output = some output ∧
    key ∈ (graph.nextFrame timestep).Demand graph.nodes (graph.nextMeaning h timestep) output}

/-- An evaluation has a result. It computes what the output demands and changes nothing else. -/
theorem evaluate?_eq_some (graph : Graph α) (h : graph.nodes.Acyclic)
    (hstamp : ∀ key node, graph.nodes.get? key = some node → node.lastFrame ≤ graph.frame) (timestep : α) :
    ∃ nodes : Nodes α,
      (graph.nextFrame timestep).Progress graph.nodes (graph.nextMeaning h timestep) (graph.nextDemand h timestep)
        nodes ∧
      graph.evaluate? timestep = some ((graph.output.bind nodes.get?).map (·.pose),
        { graph with nodes, frame := graph.frame + 1 }) := by
  cases houtput : graph.output with
  | none =>
    have hempty : graph.nextDemand h timestep = ∅ := by simp [nextDemand, houtput]
    refine ⟨graph.nodes, ?_, by simp [evaluate?, houtput, nextFrame]⟩
    rw [hempty]
    exact Frame.progress_empty
  | some output =>
    have hdemand : graph.nextDemand h timestep =
        ∅ ∪ (graph.nextFrame timestep).Demand graph.nodes (graph.nextMeaning h timestep) output := by
      ext key
      simp [nextDemand, houtput]
    have hlater : ∀ key node, graph.nodes.get? key = some node →
        node.lastFrame < (graph.nextFrame timestep).number :=
      fun key node hnode => Nat.lt_succ_of_le (hstamp key node hnode)
    have hwaiting : ∀ other, Relation.ReflTransGen graph.nodes.Binds output other → graph.nodes.contains other →
        other ∈ graph.nodes.keys := fun other _ hlive => (Arena.mem_keys _ _).2 hlive
    obtain ⟨nodes, hrun, hprogress⟩ := Frame.runs_visit h
      (fun key => Frame.meaning_eq (graph.nextFrame timestep) graph.nodes h key) hlater output
      (fun _ hkey => hkey.elim) hwaiting graph.nodes Frame.progress_empty
    refine ⟨nodes, by rw [hdemand]; exact hprogress, ?_⟩
    simp only [evaluate?, houtput, hrun]
    rfl

end Armature.Graph
