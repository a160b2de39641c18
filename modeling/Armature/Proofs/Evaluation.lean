import Armature.Proofs.WellFormed

/-!
# Evaluations against the plain semantics

After an evaluation the nodes that were computed hold what the plain semantics says of the graph before it
(`Graph.Reached.evaluate_meaning`), and these nodes are exactly the ones that the output demands
(`Graph.Reached.evaluate_demand`).
-/

namespace Armature.Graph

variable {α : Type} [Scalar α] {cleared : Prop} {graph : Graph α}

/-- An evaluation makes a moment of the frame of the graph in which exactly what the output demands is done. -/
theorem WellFormed.progress_evaluate (h : graph.WellFormed cleared) (timestep : α) :
    (graph.nextFrame timestep).Progress graph.nodes (graph.nextMeaning h.acyclic timestep)
      (graph.nextDemand h.acyclic timestep) (graph.evaluate timestep).2.nodes := by
  obtain ⟨nodes, hprogress, heval⟩ := h.evaluate?_eq_some timestep
  rw [Graph.evaluate, heval]
  exact hprogress

theorem WellFormed.evaluate_snd (h : graph.WellFormed cleared) (timestep : α) :
    (graph.evaluate timestep).2 =
      { graph with nodes := (graph.evaluate timestep).2.nodes, frame := graph.frame + 1 } := by
  obtain ⟨nodes, -, heval⟩ := h.evaluate?_eq_some timestep
  rw [Graph.evaluate, heval]
  rfl

/-! All but the nodes and the number of the frame stays as it is. -/

theorem WellFormed.skeleton_evaluate (h : graph.WellFormed cleared) (timestep : α) :
    (graph.evaluate timestep).2.skeleton = graph.skeleton := by rw [h.evaluate_snd]

theorem WellFormed.settings_evaluate (h : graph.WellFormed cleared) (timestep : α) :
    (graph.evaluate timestep).2.settings = graph.settings := by rw [h.evaluate_snd]

theorem WellFormed.output_evaluate (h : graph.WellFormed cleared) (timestep : α) :
    (graph.evaluate timestep).2.output = graph.output := by rw [h.evaluate_snd]

theorem WellFormed.table_evaluate (h : graph.WellFormed cleared) (timestep : α) :
    (graph.evaluate timestep).2.table = graph.table := by rw [h.evaluate_snd]

theorem WellFormed.frame_evaluate (h : graph.WellFormed cleared) (timestep : α) :
    (graph.evaluate timestep).2.frame = graph.frame + 1 := by rw [h.evaluate_snd]

theorem WellFormed.evaluate_fst (h : graph.WellFormed cleared) (timestep : α) :
    (graph.evaluate timestep).1 = (graph.evaluate timestep).2.outputPose := by
  obtain ⟨nodes, -, heval⟩ := h.evaluate?_eq_some timestep
  rw [Graph.evaluate, heval]
  rfl

theorem WellFormed.contains_of_demand (h : graph.WellFormed cleared) {timestep : α} {key : NodeKey}
    (hkey : key ∈ graph.nextDemand h.acyclic timestep) : graph.nodes.contains key := by
  obtain ⟨output, houtput, hdemand⟩ := hkey
  induction hdemand with
  | refl => exact h.output output houtput
  | tail _ hneeds _ => exact h.closed _ _ hneeds.binds

/-- A node was computed in the last frame if its stamp says so. -/
theorem WellFormed.mem_demand_iff (h : graph.WellFormed cleared) {timestep : α} {key : NodeKey} {node : Node α}
    (hnode : (graph.evaluate timestep).2.node? key = some node) :
    key ∈ graph.nextDemand h.acyclic timestep ↔ node.lastFrame = graph.frame + 1 := by
  have hprogress := h.progress_evaluate timestep
  constructor
  · intro hkey
    rw [node?, hprogress.finished key hkey] at hnode
    obtain ⟨old, -, rfl⟩ := Option.map_eq_some_iff.1 hnode
    rfl
  · intro hstamp
    by_contra hkey
    rw [node?, hprogress.untouched key hkey] at hnode
    have hpast := (h.fits key node hnode).stamp
    omega

/-- After an evaluation every node that was computed in it, the output among them, holds what the plain semantics says:
    the value of the recursion along the inputs, from the state before the frame. A clip sampler that was computed
    remembers the clip that it played, and its position has advanced once. -/
theorem Reached.evaluate_meaning (h : graph.Reached) (timestep : α) :
    let frame := graph.nextFrame timestep
    let meaning := frame.meaning graph.nodes h.wellFormed.acyclic
    let next := (graph.evaluate timestep).2
    graph.evaluate? timestep = some (graph.evaluate timestep) ∧ next.frame = graph.frame + 1 ∧
    (∀ output, graph.output = some output → ∃ node, next.node? output = some node ∧
      node.lastFrame = next.frame ∧ (graph.evaluate timestep).1 = some node.pose) ∧
    ∀ key node, next.node? key = some node → node.lastFrame = next.frame →
      meaning key = some node.result ∧
      ∃ old, graph.node? key = some old ∧
        (node.kind = .clipSampler → node.playback? = some (frame.nextPlayback meaning old)) := by
  have hwell := h.wellFormed
  have hprogress := hwell.progress_evaluate timestep
  have hframe := hwell.frame_evaluate timestep
  refine ⟨hwell.evaluate?_eq timestep, hframe, ?_, ?_⟩
  · intro output houtput
    have hdemand : output ∈ graph.nextDemand hwell.acyclic timestep := ⟨output, houtput, .refl⟩
    obtain ⟨old, hold⟩ := Nodes.get?_of_contains (hwell.output output houtput)
    have hnode := hprogress.finished output hdemand
    rw [hold, Option.map_some] at hnode
    refine ⟨_, hnode, hframe.symm, ?_⟩
    have houtput' := (hwell.output_evaluate timestep).trans houtput
    rw [hwell.evaluate_fst, outputPose, houtput', Option.bind_some, node?, hnode]
    rfl
  · intro key node hnode hstamp
    have hdemand := (hwell.mem_demand_iff hnode).2 (hstamp.trans hframe)
    rw [node?, hprogress.finished key hdemand] at hnode
    obtain ⟨old, hold, rfl⟩ := Option.map_eq_some_iff.1 hnode
    refine ⟨?_, old, hold, ?_⟩
    · rw [Frame.meaning_eq, hold, Option.map_some, Frame.result_finish]
      rfl
    · intro hkind
      have hkind : old.kind = .clipSampler := hkind
      simp only [Frame.finish, Node.playback?, Frame.stateAfter, hkind]
      rfl

/-- A clip in which the bone is up, and that gives no rate. -/
def perch : Asset (Clip Binary32) :=
  ⟨2, ⟨"perch", 25.0, 0, (∅ : Std.ExtTreeMap String (BoneTrack Binary32)).insert "root"
    ⟨.constant ⟨0, 1, 0⟩, .constant .identity, .constant ⟨1, 1, 1⟩⟩⟩⟩

/-- Two clip samplers, and a blend from one clip to the other by a weight of two. -/
def overshoot : Graph Binary32 :=
  [.addNode .clipSampler, .addNode .clipSampler, .addNode .blend, .setOutput (some ⟨2⟩),
    .bindValue ⟨0⟩ 0 (.animation (some hop)), .bindValue ⟨1⟩ 0 (.animation (some perch)),
    .bindValue ⟨2⟩ 2 (.float 2.0), .bindNode ⟨2⟩ 0 ⟨0⟩, .bindNode ⟨2⟩ 1 ⟨1⟩].foldl Command.run
    (.ofSkeleton oneBone .default)

theorem reached_overshoot : overshoot.Reached := (ReachedBy.new _ _).foldl (by simp)

/-- The poses of the blend are bound to the samplers. -/
theorem overshoot_eq :
    overshoot = (([.addNode .clipSampler, .addNode .clipSampler, .addNode .blend, .setOutput (some ⟨2⟩),
      .bindValue ⟨0⟩ 0 (.animation (some hop)), .bindValue ⟨1⟩ 0 (.animation (some perch)),
      .bindValue ⟨2⟩ 2 (.float 2.0)].foldl Command.run (.ofSkeleton oneBone .default)).bindSlot ⟨2⟩ 0
        (.node ⟨0⟩)).bindSlot ⟨2⟩ 1 (.node ⟨1⟩) := by
  refine Eq.trans (congrArg (Command.run · (.bindNode ⟨2⟩ 1 ⟨1⟩)) ?_)
    (run_bindNode_of_children_eq_nil rfl rfl rfl (by decide))
  exact run_bindNode_of_children_eq_nil rfl rfl rfl (by decide)

theorem output_overshoot : overshoot.output = some ⟨2⟩ := by
  rw [overshoot_eq]
  rfl

theorem node?_overshoot :
    overshoot.node? ⟨0⟩ = some { Node.ofKind .clipSampler with inputs := [.variable ⟨0⟩, .unbound, .unbound] } ∧
    overshoot.node? ⟨1⟩ = some { Node.ofKind .clipSampler with inputs := [.variable ⟨1⟩, .unbound, .unbound] } ∧
    overshoot.node? ⟨2⟩ =
      some { Node.ofKind .blend with inputs := [.node ⟨0⟩, .node ⟨1⟩, .variable ⟨2⟩] } := by
  rw [overshoot_eq]
  exact ⟨rfl, rfl, rfl⟩

/-- What the first frame reads. -/
theorem nextFrame_overshoot :
    overshoot.nextFrame 1 = ⟨oneBone.value.tree, ((VariableTable.empty.insert ⟨none, .animation (some hop)⟩).insert
      ⟨none, .animation (some perch)⟩).insert ⟨none, .float 2.0⟩, .default, 1, 1⟩ := by
  rw [overshoot_eq]
  rfl

/-- The output demands the second sampler. -/
theorem mem_nextDemand_overshoot : ⟨1⟩ ∈ overshoot.nextDemand reached_overshoot.wellFormed.acyclic 1 := by
  obtain ⟨-, hperch, hblend⟩ := node?_overshoot
  refine ⟨⟨2⟩, output_overshoot, .single ⟨_, hblend, (.pose, 1), by simp [Frame.reads, Node.ofKind], ?_⟩⟩
  exact Frame.typedChild?_eq_some_iff.2 ⟨rfl, _, hperch, rfl⟩

/-- The weight counts as one, so the pose is that of the second clip; and the position in this clip advances at the rate
    of the settings. -/
theorem evaluate_meaning_overshoot :
    ∃ blend sampler : Node Binary32, (overshoot.evaluate 1).2.node? ⟨2⟩ = some blend ∧
      blend.pose["root"]? = some (.ofTranslation ⟨0, 1, 0⟩) ∧
      (overshoot.evaluate 1).2.node? ⟨1⟩ = some sampler ∧ sampler.playback? = some ⟨25.0, some perch⟩ := by
  have hwell := reached_overshoot.wellFormed
  obtain ⟨-, hframe, houtput, hcomputed⟩ := reached_overshoot.evaluate_meaning 1
  obtain ⟨hhop, hperch, hblend⟩ := node?_overshoot
  have hpose := (overshoot.nextFrame 1).poseInput_meaning_sampler hwell.acyclic hhop rfl
  have hpose' := (overshoot.nextFrame 1).poseInput_meaning_sampler hwell.acyclic hperch rfl
  have hmeaning := (overshoot.nextFrame 1).meaning_eq overshoot.nodes hwell.acyclic ⟨2⟩
  rw [show overshoot.nodes.get? ⟨2⟩ = _ from hblend, Option.map_some] at hmeaning
  generalize (overshoot.nextFrame 1).meaning overshoot.nodes hwell.acyclic = meaning at *
  rw [nextFrame_overshoot] at hpose hpose' hmeaning hcomputed
  obtain ⟨blend, hafter, hstamp, -⟩ := houtput ⟨2⟩ output_overshoot
  have hmixed : blend.result = .pose (Pose.sample perch.value oneBone.value.tree 0) := by
    have hresult := (hcomputed ⟨2⟩ blend hafter hstamp).1
    rw [hmeaning, Option.some.injEq] at hresult
    rw [← hresult]
    show Result.pose (Frame.both _ (Frame.poseInput meaning (.node ⟨0⟩)) (Frame.poseInput meaning (.node ⟨1⟩))) = _
    rw [hpose, hpose']
    rfl
  have hsampler := (hwell.progress_evaluate 1).finished ⟨1⟩ mem_nextDemand_overshoot
  rw [show overshoot.nodes.get? ⟨1⟩ = _ from hperch, Option.map_some] at hsampler
  obtain ⟨-, old, hold, hplayback⟩ := hcomputed ⟨1⟩ _ hsampler (by rw [hframe]; rfl)
  obtain rfl := Option.some.inj (hperch.symm.trans hold)
  refine ⟨blend, _, hafter, ?_, hsampler, (hplayback rfl).trans ?_⟩
  · rw [Node.pose_of_result hmixed]
    decide
  · have hstep : perch.value.stepTime 0 (25.0 * 1 * 1) true = 25.0 := by decide
    exact congrArg (fun time => some (Playback.mk time (some perch))) hstep

/-- An evaluation computes each node that the output demands once, and no other node is changed in any way. What is
    demanded is the least set that has the output and, with each node, the nodes of the expected types at the inputs
    that its computation reads. -/
theorem Reached.evaluate_demand (h : graph.Reached) (timestep : α) {output : NodeKey}
    (houtput : graph.output = some output) :
    let frame := graph.nextFrame timestep
    let meaning := frame.meaning graph.nodes h.wellFormed.acyclic
    let next := (graph.evaluate timestep).2
    ∃ demanded : Set NodeKey,
      IsLeast {done | output ∈ done ∧ frame.Settled graph.nodes meaning done} demanded ∧
      graph.evaluate? timestep = some (graph.evaluate timestep) ∧
      (∀ key ∈ demanded, ∃ old node, graph.node? key = some old ∧ next.node? key = some node ∧
        node.evaluations = old.evaluations + 1 ∧ node.lastFrame = graph.frame + 1) ∧
      ∀ key ∉ demanded, next.node? key = graph.node? key := by
  have hwell := h.wellFormed
  have hprogress := hwell.progress_evaluate timestep
  have hdemand : graph.nextDemand hwell.acyclic timestep =
      (graph.nextFrame timestep).Demand graph.nodes (graph.nextMeaning hwell.acyclic timestep) output := by
    ext key
    simp [nextDemand, houtput]
  refine ⟨graph.nextDemand hwell.acyclic timestep, ⟨⟨?_, ?_⟩, ?_⟩, hwell.evaluate?_eq timestep, ?_, ?_⟩
  · exact ⟨output, houtput, .refl⟩
  · rw [hdemand]
    exact Frame.settled_demand output
  · rintro done ⟨hmem, hsettled⟩
    rw [hdemand]
    exact hsettled.demand_subset hmem
  · intro key hkey
    obtain ⟨old, hold⟩ := Nodes.get?_of_contains (hwell.contains_of_demand hkey)
    have hnode := hprogress.finished key hkey
    rw [hold, Option.map_some] at hnode
    exact ⟨old, _, hold, hnode, rfl, rfl⟩
  · exact hprogress.untouched

theorem evaluate_demand_diamond :
    ∃ old node : Node Binary32, diamond.node? ⟨1⟩ = some old ∧
      (diamond.evaluate 1).2.node? ⟨1⟩ = some node ∧ node.evaluations = old.evaluations + 1 := by
  obtain ⟨demanded, hleast, -, hdemanded, -⟩ := reachedBy_diamond.reached.evaluate_demand 1 output_diamond
  obtain ⟨old, node, hold, hnode, hcount, -⟩ := hdemanded ⟨1⟩ hleast.1.1
  exact ⟨old, node, hold, hnode, hcount⟩

end Armature.Graph
