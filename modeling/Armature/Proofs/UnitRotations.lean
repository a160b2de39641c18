import Armature.Proofs.Origin
import Armature.Proofs.SampledTimes
import Armature.Proofs.UnitPose

/-!
# Rotations stay rotations

If the rotation keys of all clips and the rotations of the bind transforms have length one, so has every rotation in
every pose that a graph or a player ever holds, and no quaternion of length zero is normalized on the way
(`rotations_unit`). What a node means in a frame is made by operations on poses out of what its inputs mean, and a clip
sampler makes its pose out of keys and bind transforms alone; so the induction is along the bindings, and does not look
at the poses that nodes held before the frame.
-/

namespace Armature

/-! ## Players -/

/-- Nothing that is normalized to sample the clip of a playback has length zero. -/
def Playback.PoseDefined {α : Type} [Scalar α] (playback : Playback α) (tree : BoneTree α) : Prop :=
  ∀ clip, playback.clip = some clip → Pose.SampleDefined clip.value tree playback.time

/-- The clip of a playback, if any, has keys of length one. -/
def Playback.UnitKeys (playback : Playback ℝ) : Prop := ∀ clip, playback.clip = some clip → clip.value.UnitKeys

/-- Clips that are assigned have keys of length one, and skeletons bind transforms. -/
def Control.UnitKeys : Control ℝ → Prop
  | setClip clip => ∀ c, clip = some c → c.value.UnitKeys
  | update skeleton _ _ => skeleton.tree.UnitBinds
  | _ => True

theorem Playback.UnitKeys.isUnit_pose {playback : Playback ℝ} (h : playback.UnitKeys) {tree : BoneTree ℝ}
    (htree : tree.UnitBinds) : (playback.pose tree).IsUnit := by
  unfold pose
  split
  · next clip hclip => exact Pose.isUnit_sample (h clip hclip) htree playback.time
  · exact Pose.isUnit_empty

theorem Playback.UnitKeys.settle {playback : Playback ℝ} (h : playback.UnitKeys) : playback.settle.UnitKeys := by
  unfold UnitKeys
  rw [clip_settle]
  exact h

namespace Player

/-- What holds of a player at any moment. -/
structure UnitRotations (player : Player ℝ) : Prop where
  clip : player.playback.UnitKeys
  pose : player.pose.IsUnit

variable {player : Player ℝ}

theorem unitRotations_ofClip {clip : Option (Asset (Clip ℝ))} (h : ∀ c, clip = some c → c.value.UnitKeys) :
    (ofClip clip).UnitRotations :=
  ⟨h, Pose.isUnit_empty⟩

theorem UnitRotations.control (h : player.UnitRotations) {control : Control ℝ} (hcontrol : control.UnitKeys) :
    (control.run player).UnitRotations := by
  constructor
  · unfold Playback.UnitKeys
    rcases control.clip_run player with hkept | ⟨clip, rfl, hset⟩
    · rw [hkept]
      exact h.clip
    · rw [hset]
      exact hcontrol
  · cases control with
    | update skeleton settings timestep => exact h.clip.settle.isUnit_pose hcontrol
    | _ => exact h.pose

theorem UnitRotations.run (h : player.UnitRotations) {controls : List (Control ℝ)}
    (hcontrols : ∀ control ∈ controls, control.UnitKeys) : (controls.foldl Control.run player).UnitRotations := by
  induction controls generalizing player with
  | nil => exact h
  | cons control controls ih =>
    obtain ⟨hcontrol, hcontrols⟩ := List.forall_mem_cons.1 hcontrols
    exact ih (h.control hcontrol) hcontrols

end Player

/-! ## Frames -/

/-- The clip of a value, if any, has keys of length one. -/
def Value.UnitKeys (value : Value ℝ) : Prop := ∀ clip, value.asClip? = some clip → clip.value.UnitKeys

/-- What is delivered, if it is a pose, has rotations of length one. -/
def Result.IsUnit : Result ℝ → Prop
  | .pose p => p.IsUnit
  | _ => True

theorem Result.IsUnit.of_pose? {result : Result ℝ} (h : result.IsUnit) {p : Pose ℝ} (hpose : result.pose? = some p) :
    p.IsUnit := by
  cases result with
  | pose q =>
    obtain rfl := Option.some.inj hpose
    exact h
  | _ => cases hpose

namespace Frame

/-- Nothing that the operation of a node normalizes has length zero. -/
def OperationDefined {α : Type} [Scalar α] (frame : Frame α) (results : Results α) (node : Node α) : Prop :=
  let poses (f : Pose α → Pose α → Prop) : Prop :=
    ∀ a b, poseInput results (node.input 0) = some a → poseInput results (node.input 1) = some b → f a b
  let weight := frame.weightInput results (node.input 2)
  match node.kind with
  | .clipSampler => ∀ clip, frame.clipInput (node.input 0) = some clip →
      Pose.SampleDefined clip.value frame.tree (startTime (node.playback?.getD .idle) clip)
  | .blend => poses (·.BlendDefined · frame.tree weight)
  | .additiveBlend => poses (·.LayerDefined · frame.tree weight)
  | .calculateAdditive => poses (·.DifferenceDefined · frame.tree)
  | _ => True

/-- The clips of variables have keys of length one, and the bones bind transforms. -/
structure UnitKeys (frame : Frame ℝ) : Prop where
  binds : frame.tree.UnitBinds
  clips : ∀ value ∈ frame.table.values, value.UnitKeys

variable {frame : Frame ℝ} {results : Results ℝ} {node : Node ℝ}

theorem UnitKeys.clipInput (h : frame.UnitKeys) {slot : Slot} {clip : Asset (Clip ℝ)}
    (hclip : frame.clipInput slot = some clip) : clip.value.UnitKeys := by
  rw [clipInput_eq] at hclip
  obtain ⟨v, hv, hclip⟩ := Option.bind_eq_some_iff.1 hclip
  obtain ⟨key, -, hv⟩ := Option.bind_eq_some_iff.1 hv
  exact h.clips v.value (VariableTable.mem_values hv) clip hclip

theorem UnitKeys.isUnit_sampledPose (h : frame.UnitKeys) (node : Node ℝ) : (frame.sampledPose node).IsUnit := by
  unfold sampledPose
  split
  · next clip hclip => exact Pose.isUnit_sample (h.clipInput hclip) h.binds _
  · exact Pose.isUnit_empty

theorem isUnit_both {f : Pose ℝ → Pose ℝ → Pose ℝ} {a b : Option (Pose ℝ)}
    (hf : ∀ p q : Pose ℝ, p.IsUnit → q.IsUnit → (f p q).IsUnit) (ha : ∀ p, a = some p → p.IsUnit)
    (hb : ∀ q, b = some q → q.IsUnit) : (both f a b).IsUnit := by
  unfold both
  split
  · next p q => exact hf p q (ha p rfl) (hb q rfl)
  · exact Pose.isUnit_empty

section Operation

variable (h : frame.UnitKeys)
  (hinputs : ∀ index pose, poseInput results (node.input index) = some pose → pose.IsUnit)

include h hinputs

/-- An operation is applied to poses whose rotations have length one, and keeps that. -/
theorem UnitKeys.isUnit_operation : (frame.operation results node).IsUnit := by
  unfold operation
  cases hkind : node.kind with
  | clipSampler => exact h.isUnit_sampledPose node
  | blend => exact isUnit_both (fun _ _ hp hq => hp.blend hq _ _) (hinputs 0) (hinputs 1)
  | additiveBlend => exact isUnit_both (fun _ _ hp hq => hp.layer hq _ _) (hinputs 0) (hinputs 1)
  | calculateAdditive => exact isUnit_both (fun _ _ hp hq => hp.difference hq _) (hinputs 0) (hinputs 1)
  | selectPose =>
    dsimp only [Result.IsUnit]
    generalize (if frame.boolInput results (node.input 2) false then 1 else 0) = index
    cases hselected : poseInput results (node.input index) with
    | some pose => exact hinputs index pose hselected
    | none => exact Pose.isUnit_empty
  | bool op => cases op <;> trivial
  | float op => trivial

theorem UnitKeys.operationDefined : frame.OperationDefined results node := by
  unfold OperationDefined
  cases hkind : node.kind with
  | clipSampler => exact fun clip hclip => Pose.sampleDefined (h.clipInput hclip) frame.tree _
  | blend => exact fun a b ha hb => (hinputs 0 a ha).blendDefined (hinputs 1 b hb) _ _
  | additiveBlend => exact fun a b ha hb => (hinputs 0 a ha).layerDefined (hinputs 1 b hb) _ _
  | calculateAdditive => exact fun a b ha hb => (hinputs 0 a ha).differenceDefined (hinputs 1 b hb) _
  | _ => trivial

end Operation

/-- An input reads what the node means that it is bound to. -/
theorem isUnit_poseInput
    (hresults : ∀ child, Slot.node child ∈ node.inputs → ∀ result, results child = some result → result.IsUnit)
    (index : Nat) (pose : Pose ℝ) (hpose : poseInput results (node.input index) = some pose) : pose.IsUnit := by
  cases hslot : node.input index with
  | node child =>
    rw [hslot] at hpose
    obtain ⟨result, hresult, hpose⟩ := Option.bind_eq_some_iff.1 hpose
    exact (hresults child (mem_inputs_of_input hslot) result hresult).of_pose? hpose
  | _ =>
    rw [hslot] at hpose
    cases hpose

theorem UnitKeys.isUnit_meaning (h : frame.UnitKeys) {nodes : Nodes ℝ} (hacyclic : nodes.Acyclic) (key : NodeKey) :
    ∀ result, frame.meaning nodes hacyclic key = some result → result.IsUnit := by
  induction key using hacyclic.wellFounded.induction with
  | _ key ih =>
    intro result hresult
    rw [meaning_eq] at hresult
    obtain ⟨node, hnode, rfl⟩ := Option.map_eq_some_iff.1 hresult
    refine h.isUnit_operation (isUnit_poseInput fun child hchild => ?_)
    exact ih child ⟨node, hnode, hchild⟩

theorem pose_finish {α : Type} [Scalar α] (frame : Frame α) (results : Results α) (node : Node α) :
    (frame.finish results node).pose = (frame.operation results node).pose?.getD ∅ := by
  cases hkind : node.kind with
  | bool op => cases op <;> simp [Node.pose, finish, stateAfter, operation, hkind, Result.pose?]
  | _ => simp [Node.pose, finish, stateAfter, operation, hkind, Result.pose?]

/-- A node that a frame has computed holds the pose that it means. -/
theorem UnitKeys.isUnit_pose_finish (h : frame.UnitKeys) {nodes : Nodes ℝ} (hacyclic : nodes.Acyclic) {key : NodeKey}
    (hnode : nodes.get? key = some node) : (frame.finish (frame.meaning nodes hacyclic) node).pose.IsUnit := by
  have hmeaning := (meaning_eq frame nodes hacyclic key).trans (congrArg _ hnode)
  have hunit := h.isUnit_meaning hacyclic key _ hmeaning
  rw [pose_finish]
  cases hpose : (frame.operation (frame.meaning nodes hacyclic) node).pose? with
  | some pose => exact hunit.of_pose? hpose
  | none => exact Pose.isUnit_empty

end Frame

/-! ## Graphs -/

theorem Node.isUnit_pose_ofKind (kind : NodeKind) : (Node.ofKind kind : Node ℝ).pose.IsUnit := by
  cases kind <;> exact Pose.isUnit_empty

/-- Moving the playback of a node leaves its pose. -/
theorem Node.pose_setTime {α : Type} (node : Node α) (time : α) : (node.setTime time).pose = node.pose := by
  cases hstate : node.state <;> simp [setTime, pose, hstate]

/-- Clips that a command brings in have keys of length one. -/
def Command.UnitKeys (command : Command ℝ) : Prop := ∀ value ∈ command.values, value.UnitKeys

namespace Graph

/-- What holds of a graph at any moment. -/
structure UnitRotations (graph : Graph ℝ) : Prop where
  nodes : ∀ key node, graph.node? key = some node → node.pose.IsUnit
  clips : ∀ value ∈ graph.table.values, value.UnitKeys

variable {graph : Graph ℝ}

theorem unitRotations_ofSkeleton (skeleton : Asset (Skeleton ℝ)) (settings : Settings ℝ) :
    (ofSkeleton skeleton settings).UnitRotations where
  nodes key node hnode := by simp [node?, ofSkeleton] at hnode
  clips value hvalue := by simp [ofSkeleton] at hvalue

theorem UnitRotations.nextFrame (h : graph.UnitRotations) (htree : graph.skeleton.value.tree.UnitBinds) (timestep : ℝ) :
    (graph.nextFrame timestep).UnitKeys :=
  ⟨htree, h.clips⟩

theorem UnitRotations.run (h : graph.UnitRotations) (hwell : graph.WellFormed True)
    (htree : graph.skeleton.value.tree.UnitBinds) {command : Command ℝ} (hcommand : command.UnitKeys) :
    (command.run graph).UnitRotations := by
  have hleaves := hwell.leaves_run command
  constructor
  · intro key node hnode
    cases hleaves.makes key node hnode with
    | fresh kind => exact Node.isUnit_pose_ofKind kind
    | rebind _ inputs evaluations hold =>
      have hpose := h.nodes _ _ hold
      exact hpose
    | move time hold =>
      rw [Node.pose_setTime]
      exact h.nodes _ _ hold
    | finish timestep hold => exact (h.nextFrame htree timestep).isUnit_pose_finish hwell.acyclic hold
  · intro value hvalue
    rcases hleaves.values hvalue with hold | hbrought
    · exact h.clips value hold
    · exact hcommand value hbrought

theorem ReachedBy.unitRotations (h : graph.ReachedBy Command.UnitKeys) (htree : graph.skeleton.value.tree.UnitBinds) :
    graph.UnitRotations := by
  induction h with
  | new skeleton settings => exact unitRotations_ofSkeleton skeleton settings
  | step hgraph hcommand ih =>
    have hwell := hgraph.reached.wellFormed
    rw [(hwell.leaves_run _).skeleton] at htree
    exact (ih htree).run hwell htree hcommand

end Graph

/-- If the rotation keys of all clips and the rotations of all bind transforms have length one, then every rotation in
    every pose that a node of a graph holds has length one, whichever commands have led to the graph. A node that is
    computed in the next frame holds the result of its operation on what its inputs mean, and nothing that this operation
    normalizes has length zero. The same holds of a player, whichever controls have been used and whatever comes next. -/
theorem rotations_unit :
    (∀ (graph : Graph ℝ) (h : graph.ReachedBy Command.UnitKeys), graph.skeleton.value.tree.UnitBinds →
      (∀ key node, graph.node? key = some node → node.pose.IsUnit) ∧
      ∀ timestep key node, (graph.evaluate timestep).2.node? key = some node → node.lastFrame = graph.frame + 1 →
        let frame := graph.nextFrame timestep
        let meaning := graph.nextMeaning h.reached.wellFormed.acyclic timestep
        ∃ old, graph.node? key = some old ∧ node.result = frame.operation meaning old ∧
          frame.OperationDefined meaning old) ∧
    (∀ (initial : Option (Asset (Clip ℝ))) (controls : List (Control ℝ)),
      (∀ clip, initial = some clip → clip.value.UnitKeys) → (∀ control ∈ controls, control.UnitKeys) →
      let player := controls.foldl Control.run (Player.ofClip initial)
      player.pose.IsUnit ∧ ∀ tree, player.playback.settle.PoseDefined tree) := by
  constructor
  · intro graph h htree
    have hunit := h.unitRotations htree
    have hwell := h.reached.wellFormed
    refine ⟨hunit.nodes, fun timestep key node hnode hstamp => ?_⟩
    intro frame meaning
    have hkey := (hwell.mem_demand_iff hnode).2 hstamp
    have hprogress := hwell.progress_evaluate timestep
    obtain ⟨old, hold, rfl⟩ := Option.map_eq_some_iff.1 ((hprogress.finished key hkey).symm.trans hnode)
    refine ⟨old, hold, Frame.result_finish _ _ _, ?_⟩
    have hframe : frame.UnitKeys := hunit.nextFrame htree timestep
    refine hframe.operationDefined (Frame.isUnit_poseInput fun child _ => ?_)
    exact hframe.isUnit_meaning hwell.acyclic child
  · intro initial controls hinitial hcontrols player
    have hunit := (Player.unitRotations_ofClip hinitial).run hcontrols
    exact ⟨hunit.pose, fun tree clip hclip => Pose.sampleDefined (hunit.clip.settle clip hclip) tree _⟩

/-- A bone that turns by half a turn in two ticks. -/
noncomputable def spinTrack : BoneTrack ℝ := ⟨.empty, ⟨[⟨0, .identity⟩, ⟨2, ⟨0, 0, 1, 0⟩⟩]⟩, .empty⟩

noncomputable def spin : Asset (Clip ℝ) := ⟨1, ⟨"spin", 2, 1, Std.ExtTreeMap.empty.insert "root" spinTrack⟩⟩

theorem unitKeys_spin : spin.value.UnitKeys := by
  intro name track htrack
  simp only [spin, Std.ExtTreeMap.getElem?_insert] at htrack
  split at htrack
  · obtain rfl := Option.some.inj htrack
    simp only [spinTrack, List.mem_cons, List.not_mem_nil, or_false, forall_eq_or_imp, forall_eq]
    exact ⟨Quat.isUnit_identity, by simp [Quat.IsUnit, Quat.dot]⟩
  · simp at htrack

/-- A skeleton of one bone, which is not moved from its parent. -/
noncomputable def stump : Asset (Skeleton ℝ) := ⟨0, .ofTree ⟨⟨"root", .identity⟩, .nil⟩⟩

theorem rotation_ofMatrix_identity : (Transform.ofMatrix (Mat4.identity : Mat4 ℝ)).rotation = Quat.identity := by
  have hone : Scalar.sqrt (1 : ℝ) = 1 := Real.sqrt_one
  have hfour : Scalar.sqrt (1 + 1 + (1 + 1) : ℝ) = 2 := by
    rw [show (1 + 1 + (1 + 1) : ℝ) = 2 ^ 2 by norm_num]
    exact Real.sqrt_sq (by norm_num)
  have hsign : Scalar.signum (1 : ℝ) = 1 := if_neg (by norm_num)
  have hpos : ¬ (1 : ℝ) ≤ 0 := not_le.2 one_pos
  simp [Transform.ofMatrix, Mat4.toScaleRotationTranslation, Mat4.determinant, Mat4.identity, Vec4.length, Vec4.scale,
    Vec4.truncate, hone, hsign, Quat.ofAxes, hpos, hfour, Quat.identity]
  norm_num

theorem unitBinds_stump : stump.value.tree.UnitBinds := by
  intro bone hbone
  obtain rfl : bone = ⟨"root", .identity⟩ := by
    simpa [stump, Skeleton.ofTree, BoneTree.toList, Bones.toList] using hbone
  rw [rotation_ofMatrix_identity]
  exact Quat.isUnit_identity

/-- A sampler of the clip, after a quarter of a turn. -/
noncomputable def halfway : Graph ℝ :=
  [.addNode .clipSampler, .setOutput (some ⟨0⟩), .bindValue ⟨0⟩ 0 (.animation (some spin)),
    .setTime ⟨0⟩ 1].foldl Command.run (.ofSkeleton stump .default)

theorem reachedBy_halfway : halfway.ReachedBy Command.UnitKeys := by
  refine (Graph.ReachedBy.new _ _).foldl ?_
  simp only [List.mem_cons, List.not_mem_nil, or_false, forall_eq_or_imp, forall_eq]
  refine ⟨?_, ?_, ?_, ?_⟩
  · simp [Command.UnitKeys, Command.values]
  · simp [Command.UnitKeys, Command.values]
  · rintro _ rfl clip hclip
    obtain rfl := Option.some.inj hclip
    exact unitKeys_spin
  · simp [Command.UnitKeys, Command.values]

/-- Whatever the position, the clip moves the bone. -/
theorem sample_spin (time : ℝ) : (Pose.sample spin.value stump.value.tree time)["root"]?.isSome := by
  simp [Pose.sample, Pose.sampleInto, stump, Skeleton.ofTree, BoneTree.toList, Bones.toList, Pose.getElem?_assign,
    Pose.clipBone, spin]

theorem evaluate_halfway : ∃ node, (halfway.evaluate 1).2.node? ⟨0⟩ = some node ∧
    node.lastFrame = halfway.frame + 1 ∧ node.pose["root"]?.isSome := by
  have hwell := reachedBy_halfway.reached.wellFormed
  have hdemand : (⟨0⟩ : NodeKey) ∈ halfway.nextDemand hwell.acyclic 1 := ⟨⟨0⟩, rfl, .refl⟩
  obtain ⟨old, hold, hkind, hclip⟩ : ∃ old, halfway.node? ⟨0⟩ = some old ∧ old.kind = .clipSampler ∧
      (halfway.nextFrame 1).clipInput (old.input 0) = some spin := ⟨_, rfl, rfl, rfl⟩
  have hnode := (hwell.progress_evaluate 1).finished ⟨0⟩ hdemand
  refine ⟨_, hnode.trans (congrArg _ hold), rfl, ?_⟩
  rw [Frame.pose_finish]
  simp only [Frame.operation, hkind, Result.pose?, Option.getD_some, Frame.sampledPose, hclip]
  exact sample_spin _

/-- The sampler, and a player of the clip that is updated twice. -/
theorem rotations_unit_halfway :
    (∃ node, (halfway.evaluate 1).2.node? ⟨0⟩ = some node ∧ node.pose.IsUnit ∧ node.pose["root"]?.isSome ∧
      ∃ old, halfway.node? ⟨0⟩ = some old ∧
        (halfway.nextFrame 1).OperationDefined (halfway.nextMeaning reachedBy_halfway.reached.wellFormed.acyclic 1) old) ∧
    ([Control.setTime 1, .update stump.value .default 1, .update stump.value .default 1].foldl Control.run
      (Player.ofClip (some spin))).pose.IsUnit := by
  obtain ⟨hgraphs, hplayers⟩ := rotations_unit
  constructor
  · obtain ⟨node, hnode, hstamp, hroot⟩ := evaluate_halfway
    obtain ⟨old, hold, -, hdefined⟩ := (hgraphs halfway reachedBy_halfway unitBinds_stump).2 1 ⟨0⟩ node hnode hstamp
    refine ⟨node, hnode, ?_, hroot, old, hold, hdefined⟩
    have hnext : (halfway.evaluate 1).2.ReachedBy Command.UnitKeys :=
      reachedBy_halfway.step (show Command.UnitKeys (.evaluate 1) by simp [Command.UnitKeys, Command.values])
    have htree : (halfway.evaluate 1).2.skeleton.value.tree.UnitBinds := by
      rw [reachedBy_halfway.reached.wellFormed.skeleton_evaluate]
      exact unitBinds_stump
    exact (hgraphs _ hnext htree).1 ⟨0⟩ node hnode
  · refine (hplayers (some spin) _ ?_ ?_).1
    · rintro _ ⟨⟩
      exact unitKeys_spin
    · simp only [List.mem_cons, List.not_mem_nil, or_false, forall_eq_or_imp, forall_eq]
      exact ⟨trivial, unitBinds_stump, unitBinds_stump⟩

end Armature
