import Armature.Number.Binary32
import Armature.Player
import Armature.Proofs.Origin

/-!
# The positions at which clips are sampled

The position that a sampler or a player holds between frames may be anything but negative: beyond the end of the clip
that comes next, infinite, or no number at all, if it was moved there or an earlier clip has left it there. Before a
clip is sampled the position is settled, and so a clip is never sampled but inside its duration
(`samples_inside_duration`). What carries this is that no step makes a position negative, whatever it adds.
-/

namespace Armature

/-! ## Comparison -/

namespace Binary32

theorem isNaN_zero : (0 : Binary32).isNaN = false := rfl

theorem lt_iff {x y : Binary32} : x < y ↔ x.isNaN = false ∧ y.isNaN = false ∧ x.key < y.key := by
  change Binary32.lt x y ↔ _
  simp [Binary32.lt]

theorem le_iff {x y : Binary32} : x ≤ y ↔ x.isNaN = false ∧ y.isNaN = false ∧ x.key ≤ y.key := by
  change Binary32.le x y ↔ _
  simp [Binary32.le]

theorem not_zero_lt_zero : ¬ (0 : Binary32) < 0 := by
  simp [lt_iff]

/-- What is a number and not negative is at least zero. -/
theorem zero_le {x : Binary32} (hnan : x.isNaN = false) (h : ¬ x < 0) : 0 ≤ x := by
  rw [lt_iff] at h
  rw [le_iff]
  refine ⟨isNaN_zero, hnan, ?_⟩
  by_contra hkey
  exact h ⟨hnan, isNaN_zero, Int.not_le.1 hkey⟩

end Binary32

/-! ## Clips and playback -/

/-- The duration of a clip is a number, and not negative. -/
structure Clip.Timed (clip : Clip Binary32) : Prop where
  isNaN : clip.duration.isNaN = false
  notNegative : ¬ clip.duration < 0

/-- What is added to a position does not matter: the step stops it at zero. -/
theorem Clip.Timed.stepTime {clip : Clip Binary32} (h : clip.Timed) (time ticks : Binary32) (looping : Bool) :
    ¬ clip.stepTime time ticks looping < 0 := by
  unfold Clip.stepTime
  simp only
  split
  · split
    · exact Binary32.not_zero_lt_zero
    · exact h.notNegative
  · split
    · split
      · exact h.notNegative
      · exact Binary32.not_zero_lt_zero
    · next hnonneg => exact hnonneg

namespace Playback

/-- The clip of a playback, if any, is sampled inside its duration. -/
def InDuration (playback : Playback Binary32) : Prop :=
  ∀ clip, playback.clip = some clip →
    playback.time.isNaN = false ∧ 0 ≤ playback.time ∧ playback.time ≤ clip.value.duration

variable {playback : Playback Binary32}

theorem not_neg_switch (h : ¬ playback.time < 0) (clip : Option (Asset (Clip Binary32))) :
    ¬ (playback.switch clip).time < 0 := by
  unfold switch
  dsimp only
  split
  · exact h
  · exact Binary32.not_zero_lt_zero

/-- A position that is not negative is settled inside the duration. -/
theorem inDuration_settle (h : ¬ playback.time < 0) (hclip : ∀ clip, playback.clip = some clip → clip.value.Timed) :
    playback.settle.InDuration := by
  intro clip hsettled
  rw [clip_settle] at hsettled
  obtain ⟨hnan, hnonneg⟩ := hclip clip hsettled
  simp only [settle, hsettled]
  split
  · next hvalid =>
    have hle : playback.time ≤ clip.value.duration := of_decide_eq_true hvalid
    have hnumber := (Binary32.le_iff.1 hle).1
    exact ⟨hnumber, Binary32.zero_le hnumber h, hle⟩
  · exact ⟨Binary32.isNaN_zero, Binary32.zero_le Binary32.isNaN_zero Binary32.not_zero_lt_zero,
      Binary32.zero_le hnan hnonneg⟩

theorem not_neg_settle (h : ¬ playback.time < 0) : ¬ playback.settle.time < 0 := by
  unfold settle
  split
  · split
    · exact h
    · exact Binary32.not_zero_lt_zero
  · exact h

theorem not_neg_advance (h : ¬ playback.time < 0) (hclip : ∀ clip, playback.clip = some clip → clip.value.Timed)
    (settings : Settings Binary32) (timestep speed : Binary32) (looping : Bool) :
    ¬ (playback.advance settings timestep speed looping).time < 0 := by
  unfold advance
  split
  · next clip hplays => exact (hclip clip hplays).stepTime _ _ _
  · exact h

end Playback

/-! ## Players -/

/-- What is done to a player. -/
inductive Control (α : Type) where
  | setClip (clip : Option (Asset (Clip α)))
  | setSpeed (speed : α)
  | setLooping (looping : Bool)
  | setPaused (paused : Bool)
  | setTime (time : α)
  | update (skeleton : Skeleton α) (settings : Settings α) (timestep : α)

def Control.run {α : Type} [Scalar α] (player : Player α) : Control α → Player α
  | setClip clip => player.setClip clip
  | setSpeed speed => { player with speed }
  | setLooping looping => { player with looping }
  | setPaused paused => { player with paused }
  | setTime time => { player with playback := { player.playback with time } }
  | update skeleton settings timestep => (player.update skeleton settings timestep).2

/-- The clip is the one that has been there or the one that is assigned. -/
theorem Control.clip_run {α : Type} [Scalar α] (player : Player α) (control : Control α) :
    (control.run player).playback.clip = player.playback.clip ∨
      ∃ clip, control = .setClip clip ∧ (control.run player).playback.clip = clip := by
  cases control with
  | setClip clip => exact .inr ⟨clip, rfl, rfl⟩
  | update skeleton settings timestep =>
    left
    simp only [Control.run, Player.update]
    split
    · exact Playback.clip_settle _
    · rw [Playback.clip_advance, Playback.clip_settle]
  | _ => exact .inl rfl

/-- Clips that are assigned have durations, and positions that are assigned are not negative. -/
def Control.Timed : Control Binary32 → Prop
  | setClip clip => ∀ c, clip = some c → c.value.Timed
  | setTime time => ¬ time < 0
  | _ => True

namespace Player

/-- What holds of a player at any moment. -/
structure Timed (player : Player Binary32) : Prop where
  notNegative : ¬ player.playback.time < 0
  clip : ∀ clip, player.playback.clip = some clip → clip.value.Timed

variable {player : Player Binary32}

theorem timed_ofClip {clip : Option (Asset (Clip Binary32))} (h : ∀ c, clip = some c → c.value.Timed) :
    (ofClip clip).Timed :=
  ⟨Binary32.not_zero_lt_zero, h⟩

theorem Timed.control (h : player.Timed) {control : Control Binary32} (hcontrol : control.Timed) :
    (control.run player).Timed := by
  constructor
  · cases control with
    | setClip clip => exact Playback.not_neg_switch h.notNegative clip
    | setTime time => exact hcontrol
    | update skeleton settings timestep =>
      have hsettle := Playback.not_neg_settle h.notNegative
      simp only [Control.run, Player.update]
      split
      · exact hsettle
      · refine Playback.not_neg_advance hsettle ?_ settings timestep player.speed player.looping
        rw [Playback.clip_settle]
        exact h.clip
    | _ => exact h.notNegative
  · rcases control.clip_run player with hkept | ⟨clip, rfl, hset⟩
    · rw [hkept]
      exact h.clip
    · rw [hset]
      exact hcontrol

theorem Timed.run (h : player.Timed) {controls : List (Control Binary32)}
    (hcontrols : ∀ control ∈ controls, control.Timed) : (controls.foldl Control.run player).Timed := by
  induction controls generalizing player with
  | nil => exact h
  | cons control controls ih =>
    obtain ⟨hcontrol, hcontrols⟩ := List.forall_mem_cons.1 hcontrols
    exact ih (h.control hcontrol) hcontrols

end Player

/-! ## Graphs -/

/-- The clip of a value, if any, has a duration. -/
def Value.Timed (value : Value Binary32) : Prop := ∀ clip, value.asClip? = some clip → clip.value.Timed

def VariableTable.Timed (table : VariableTable Binary32) : Prop := ∀ key v, table.get? key = some v → v.value.Timed

/-- The position of a clip sampler is not negative. -/
def Node.Timed (node : Node Binary32) : Prop := ∀ playback, node.playback? = some playback → ¬ playback.time < 0

/-- What holds of a graph at any moment. -/
structure Graph.Timed (graph : Graph Binary32) : Prop where
  nodes : ∀ key node, graph.node? key = some node → node.Timed
  table : graph.table.Timed

/-- Clips that are assigned have durations, and positions that are assigned are not negative. -/
def Command.Timed : Command Binary32 → Prop
  | bindValue _ _ value | declareVariable _ value | addLocalVariable value | setVariable _ value
  | setVariableKey _ value => value.Timed
  | setTime _ time => ¬ time < 0
  | cloneWithVariables table _ => table.Timed
  | _ => True

/-- What a sampler plays in a frame has a duration. -/
theorem Frame.timed_readClip {frame : Frame Binary32} (h : frame.table.Timed) (slot : Slot) :
    ∀ clip, frame.readClip slot = some clip → clip.value.Timed := by
  intro clip hclip
  obtain ⟨v, hv, hclip⟩ := Option.bind_eq_some_iff.1 hclip
  obtain ⟨key, -, hv⟩ := Option.bind_eq_some_iff.1 hv
  exact h key v hv clip hclip

theorem Node.Timed.notNegative {node : Node Binary32} (h : node.Timed) : ¬ (node.playback?.getD .idle).time < 0 := by
  cases hplayback : node.playback? with
  | none => exact Binary32.not_zero_lt_zero
  | some playback => exact h playback hplayback

/-- A sampler that is played from a position that is not negative is left at one. -/
theorem Frame.timed_playClip (frame : Frame Binary32) {playback : Playback Binary32} (h : ¬ playback.time < 0)
    {clip : Option (Asset (Clip Binary32))} (hclip : ∀ c, clip = some c → c.value.Timed) (speed : Binary32)
    (looping : Bool) {node : Node Binary32} (hnode : node.state = frame.playClip playback clip speed looping) :
    node.Timed := by
  intro next hnext
  rw [Node.playback?, hnode, Frame.playClip] at hnext
  obtain rfl := Option.some.inj hnext
  cases clip with
  | none => exact Binary32.not_zero_lt_zero
  | some clip =>
    have hstart := Playback.not_neg_settle (Playback.not_neg_switch h (some clip))
    refine Playback.not_neg_advance hstart ?_ _ _ _ _
    rw [Playback.clip_settle]
    exact hclip

/-- A sampler that is computed is played. -/
theorem Frame.state_finish (frame : Frame Binary32) (results : Frame.Results Binary32) {node : Node Binary32}
    (hkind : node.kind = .clipSampler) : ∃ speed looping,
      (frame.finish results node).state =
        frame.playClip (node.playback?.getD .idle) (frame.readClip (node.input 0)) speed looping := by
  refine ⟨frame.floatInput results (node.input 1) 1, frame.boolInput results (node.input 2) true, ?_⟩
  rw [Frame.playClip_eq]
  simp only [Frame.finish, Frame.stateAfter, hkind]

theorem Frame.timed_finish {frame : Frame Binary32} (htable : frame.table.Timed) (results : Frame.Results Binary32)
    {node : Node Binary32} (h : node.Timed) : (frame.finish results node).Timed := by
  by_cases hkind : node.kind = .clipSampler
  · obtain ⟨speed, looping, hstate⟩ := frame.state_finish results hkind
    exact frame.timed_playClip h.notNegative (Frame.timed_readClip htable (node.input 0)) speed looping hstate
  · -- other nodes have no position
    intro playback hplayback
    have hfits : (frame.stateAfter results node).Fits node.kind := Graph.fits_stateAfter frame results node
    rw [Node.playback?, Frame.finish] at hplayback
    dsimp only at hplayback
    split at hplayback
    · next hstate =>
      rw [hstate] at hfits
      exact absurd hfits hkind
    · cases hplayback

theorem Node.timed_ofKind (kind : NodeKind) : (Node.ofKind kind : Node Binary32).Timed := by
  intro playback hplayback
  cases kind with
  | clipSampler =>
    obtain rfl := Option.some.inj hplayback
    exact Binary32.not_zero_lt_zero
  | _ => cases hplayback

theorem Node.Timed.setTime {node : Node Binary32} (h : node.Timed) {time : Binary32} (htime : ¬ time < 0) :
    (node.setTime time).Timed := by
  intro playback hplayback
  unfold Node.setTime at hplayback
  split at hplayback
  · obtain rfl := Option.some.inj hplayback
    exact htime
  · exact h playback hplayback

theorem Command.Timed.values {command : Command Binary32} (h : command.Timed) :
    ∀ value ∈ command.values, value.Timed := by
  cases command with
  | bindValue _ _ value | declareVariable _ value | addLocalVariable value | setVariable _ value
  | setVariableKey _ value =>
    rintro _ rfl
    exact h
  | cloneWithVariables table _ =>
    rintro _ ⟨key, v, hv, rfl⟩
    exact h key v hv
  | _ => exact fun _ hvalue => hvalue.elim

namespace Graph

variable {graph : Graph Binary32}

theorem timed_ofSkeleton (skeleton : Asset (Skeleton Binary32)) (settings : Settings Binary32) :
    (ofSkeleton skeleton settings).Timed where
  nodes key node hnode := by simp [node?, ofSkeleton] at hnode
  table key v hv := by simp [ofSkeleton, VariableTable.empty, VariableTable.get?] at hv

/-- No command makes a position negative, or brings a clip in that has no duration. -/
theorem Timed.run (h : graph.Timed) (hwell : graph.WellFormed True) {command : Command Binary32}
    (hcommand : command.Timed) : (command.run graph).Timed := by
  have hleaves := hwell.leaves_run command
  constructor
  · intro key node hnode
    cases hleaves.makes key node hnode with
    | fresh kind => exact Node.timed_ofKind kind
    | rebind _ inputs evaluations hold =>
      have htimed := h.nodes _ _ hold
      exact htimed
    | move time hold => exact (h.nodes _ _ hold).setTime hcommand
    | finish timestep hold => exact Frame.timed_finish h.table _ (h.nodes _ _ hold)
  · intro key v hv
    rcases hleaves.values (VariableTable.mem_values hv) with ⟨other, w, hw, heq⟩ | hbrought
    · exact heq ▸ h.table other w hw
    · exact hcommand.values _ hbrought

theorem ReachedBy.timed (h : graph.ReachedBy Command.Timed) : graph.Timed := by
  induction h with
  | new skeleton settings => exact timed_ofSkeleton skeleton settings
  | step hgraph hcommand ih => exact ih.run hgraph.reached.wellFormed hcommand

end Graph

/-! ## Samples -/

/-- A pose is what a playback samples: the clip at the position, which is inside the duration; nothing without a clip. -/
structure Playback.SampledInside (playback : Playback Binary32) (tree : BoneTree Binary32) (pose : Pose Binary32) :
    Prop where
  sample : ∀ clip, playback.clip = some clip → pose = Pose.sample clip.value tree playback.time
  empty : playback.clip = none → pose = ∅
  inside : playback.InDuration

theorem Playback.InDuration.sampledInside {playback : Playback Binary32} (h : playback.InDuration)
    (tree : BoneTree Binary32) : playback.SampledInside tree (playback.pose tree) where
  sample clip hclip := by rw [Playback.pose, hclip]
  empty hclip := by rw [Playback.pose, hclip]
  inside := h

/-- Graphs and players sample clips inside their duration alone, at a position that is a number, if all clips have
    durations and no position is moved below zero; whatever else is done, and whatever the timesteps and speeds are. A
    sampler that a frame computes goes on from its position with the clip that it reads, whichever it has played
    before; the other samplers of the graph are left alone. -/
theorem samples_inside_duration :
    (∀ graph : Graph Binary32, graph.ReachedBy Command.Timed → ∀ timestep key old, graph.node? key = some old →
      old.kind = .clipSampler →
      let frame := graph.nextFrame timestep
      let clip := frame.readClip (old.input 0)
      let playback := ((old.playback?.getD .idle).switch clip).settle
      let next := (graph.evaluate timestep).2
      ∃ node, next.node? key = some node ∧
        (node.lastFrame ≠ next.frame → node = old) ∧
        (node.lastFrame = next.frame → ∃ speed looping,
          node.state = frame.playClip (old.playback?.getD .idle) clip speed looping ∧
          playback.SampledInside frame.tree node.pose)) ∧
    (∀ (initial : Option (Asset (Clip Binary32))) (controls : List (Control Binary32)),
      (∀ clip, initial = some clip → clip.value.Timed) → (∀ control ∈ controls, control.Timed) →
      ∀ skeleton settings timestep,
      let player := controls.foldl Control.run (Player.ofClip initial)
      player.playback.settle.SampledInside skeleton.tree (player.update skeleton settings timestep).2.pose) := by
  constructor
  · intro graph hreached timestep key old hold hkind frame clip playback next
    have htimed := hreached.timed
    have hwell := hreached.reached.wellFormed
    have hprogress := hwell.progress_evaluate timestep
    have hframe : next.frame = graph.frame + 1 := congrArg Graph.frame (hwell.evaluate_snd timestep)
    have hinside : playback.InDuration := by
      refine Playback.inDuration_settle (Playback.not_neg_switch (htimed.nodes key old hold).notNegative clip) ?_
      exact Frame.timed_readClip htimed.table (old.input 0)
    by_cases hkey : key ∈ graph.nextDemand hwell.acyclic timestep
    · have hnode := (hprogress.finished key hkey).trans (congrArg _ hold)
      obtain ⟨speed, looping, hstate⟩ := frame.state_finish (graph.nextMeaning _ timestep) hkind
      refine ⟨_, hnode, fun hstamp => ?_, fun _ => ⟨speed, looping, hstate, ?_⟩⟩
      · exact absurd (hframe ▸ (hwell.mem_demand_iff hnode).1 hkey) hstamp
      · rw [Node.pose, hstate]
        exact hinside.sampledInside frame.tree
    · have hnode := (hprogress.untouched key hkey).trans hold
      refine ⟨old, hnode, fun _ => rfl, fun hstamp => ?_⟩
      exact absurd ((hwell.mem_demand_iff hnode).2 (hstamp.trans hframe)) hkey
  · intro initial controls hinitial hcontrols skeleton settings timestep player
    have htimed := (Player.timed_ofClip hinitial).run hcontrols
    exact (Playback.inDuration_settle htimed.notNegative htimed.clip).sampledInside skeleton.tree

theorem timed_hop : hop.value.Timed := ⟨by decide, by decide⟩

/-- A sampler of the clip whose position has been moved to what is no number. -/
def lost : Graph Binary32 :=
  [.addNode .clipSampler, .setOutput (some ⟨0⟩), .bindValue ⟨0⟩ 0 (.animation (some hop)),
    .setTime ⟨0⟩ .nan].foldl Command.run (.ofSkeleton oneBone .default)

theorem skeleton_lost : lost.skeleton = oneBone := rfl

theorem reachedBy_lost : lost.ReachedBy Command.Timed := by
  refine (Graph.ReachedBy.new _ _).foldl ?_
  simp only [List.mem_cons, List.not_mem_nil, or_false, forall_eq_or_imp, forall_eq]
  refine ⟨trivial, trivial, ?_, ?_⟩
  · intro clip hclip
    obtain rfl := Option.some.inj hclip
    exact timed_hop
  · change ¬ Binary32.nan < 0
    decide

/-- A sampler and a player whose positions are no numbers sample the clip inside its duration, and so have a transform
    for its bone. -/
theorem samples_inside_duration_lost :
    (∃ node time, (lost.evaluate 1).2.node? ⟨0⟩ = some node ∧
      node.pose = Pose.sample hop.value oneBone.value.tree time ∧ 0 ≤ time ∧ time ≤ hop.value.duration ∧
      "root" ∈ node.pose) ∧
    ∃ time, let player := (Control.setTime .nan).run (Player.ofClip (some hop))
      let pose := (player.update oneBone.value .default 1).2.pose
      pose = Pose.sample hop.value oneBone.value.tree time ∧ 0 ≤ time ∧ time ≤ hop.value.duration ∧ "root" ∈ pose := by
  obtain ⟨hgraph, hplayer⟩ := samples_inside_duration
  constructor
  · obtain ⟨old, hold, hkind, hclip⟩ : ∃ old, lost.node? ⟨0⟩ = some old ∧ old.kind = .clipSampler ∧
        (lost.nextFrame 1).readClip (old.input 0) = some hop := ⟨_, rfl, rfl, rfl⟩
    obtain ⟨node, hnode, -, hcomputed⟩ := hgraph lost reachedBy_lost 1 ⟨0⟩ old hold hkind
    -- the output is demanded
    have hwell := reachedBy_lost.reached.wellFormed
    have hstamp := (hwell.mem_demand_iff hnode).1 ⟨⟨0⟩, rfl, .refl⟩
    obtain ⟨-, -, -, hsampled⟩ := hcomputed (hstamp.trans (congrArg Graph.frame (hwell.evaluate_snd 1)).symm)
    rw [hclip] at hsampled
    obtain ⟨-, hnonneg, hle⟩ := hsampled.inside hop (Playback.clip_settle _)
    have hpose := hsampled.sample hop (Playback.clip_settle _)
    rw [Graph.nextFrame, skeleton_lost] at hpose
    exact ⟨node, _, hnode, hpose, hnonneg, hle, hpose ▸ root_mem_sample_hop _⟩
  · have hsampled := hplayer (some hop) [.setTime .nan] (fun clip hclip => Option.some.inj hclip ▸ timed_hop)
      (by simpa [Control.Timed] using show ¬ Binary32.nan < 0 by decide) oneBone.value .default 1
    obtain ⟨-, hnonneg, hle⟩ := hsampled.inside hop (Playback.clip_settle _)
    have hpose := hsampled.sample hop (Playback.clip_settle _)
    exact ⟨_, hpose, hnonneg, hle, hpose ▸ root_mem_sample_hop _⟩

end Armature
