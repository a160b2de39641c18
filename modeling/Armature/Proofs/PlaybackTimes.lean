import Mathlib.Algebra.Order.Floor.Semiring
import Armature.Proofs.AllOrNothing
import Armature.Proofs.OneSampler
import Armature.Proofs.SampledTimes
import Armature.Proofs.UnitQuaternion

/-!
# Positions over whole runs

In exact arithmetic the position of a player, and that of a clip sampler, have a closed form as long as one clip is
played (`Playback.closed_form`). A position is stopped or sent back at each step rather than once at the end; what makes
the sum of the steps count is that a step never leaves the clip (`Clip.stepTime_inside`), so the position is still valid
when the clip is sampled next, and the sample before a step is taken where the last step has ended.

Players and graphs are two systems with a position that moves (`Run`). Some of their moves advance it, by the ticks of an
update, and the others leave it where it is.
-/

namespace Armature

/-- What an update adds to a position. -/
structure Advance where
  ticks : ℝ
  looping : Bool

namespace Clip

variable {clip : Clip ℝ}

/-! ## Steps -/

/-- The position after some steps. -/
noncomputable def stepTimes (clip : Clip ℝ) (start : ℝ) (advances : List Advance) : ℝ :=
  advances.foldl (fun time advance => clip.stepTime time advance.ticks advance.looping) start

theorem stepTimes_append (start : ℝ) (advances : List Advance) (a : Advance) :
    clip.stepTimes start (advances ++ [a]) = clip.stepTime (clip.stepTimes start advances) a.ticks a.looping :=
  List.foldl_append

/-- A position in the clip. -/
def Inside (clip : Clip ℝ) (time : ℝ) : Prop := 0 ≤ time ∧ time ≤ clip.duration

/-- A step ends in the clip, wherever it starts. -/
theorem stepTime_inside (hduration : 0 ≤ clip.duration) (time ticks : ℝ) (looping : Bool) :
    clip.Inside (clip.stepTime time ticks looping) := by
  have hstart : clip.Inside 0 := ⟨le_rfl, hduration⟩
  have hend : clip.Inside clip.duration := ⟨hduration, le_rfl⟩
  unfold stepTime
  simp only
  split
  · split
    · exact hstart
    · exact hend
  · next hle =>
    split
    · split
      · exact hend
      · exact hstart
    · next hnonneg => exact ⟨not_lt.1 hnonneg, not_lt.1 hle⟩

theorem stepTimes_inside {start : ℝ} (hstart : clip.Inside start) (advances : List Advance) :
    clip.Inside (clip.stepTimes start advances) := by
  rcases List.eq_nil_or_concat advances with rfl | ⟨before, a, rfl⟩
  · exact hstart
  · rw [List.concat_eq_append, stepTimes_append]
    exact stepTime_inside (hstart.1.trans hstart.2) _ _ _

/-- A step that stays in the clip is taken as it is. -/
theorem stepTime_of_inside {time ticks : ℝ} (h : clip.Inside (time + ticks)) (looping : Bool) :
    clip.stepTime time ticks looping = time + ticks := by
  simp only [stepTime, not_lt.2 h.1, not_lt.2 h.2, if_false]

theorem stepTime_zero {time : ℝ} (h : clip.Inside time) (looping : Bool) : clip.stepTime time 0 looping = time := by
  have hzero : time + 0 = time := add_zero time
  rw [stepTime_of_inside (hzero.symm ▸ h), hzero]

/-- Without looping a step is stopped at both ends. -/
theorem stepTime_false (hduration : 0 ≤ clip.duration) (time ticks : ℝ) :
    clip.stepTime time ticks false = max 0 (min clip.duration (time + ticks)) := by
  unfold stepTime
  simp only [Bool.false_eq_true, if_false]
  split
  · next h => rw [min_eq_left h.le, max_eq_right hduration]
  · next h =>
    rw [min_eq_right (not_lt.1 h)]
    split
    · next hneg => rw [max_eq_left hneg.le]
    · next hnonneg => rw [max_eq_right (not_lt.1 hnonneg)]

/-! ## Closed forms -/

/-- The position that some steps lead to from a position in the clip. -/
structure ClosedForm (clip : Clip ℝ) (start : ℝ) (advances : List Advance) (time : ℝ) : Prop where
  /-- Forward, the position is the sum of the steps, stopped at the end. -/
  forward : start = 0 → (∀ a ∈ advances, a.looping = false ∧ 0 ≤ a.ticks) →
    time = min clip.duration (advances.map (·.ticks)).sum
  /-- Backward, it is stopped at the start. -/
  backward : (∀ a ∈ advances, a.looping = false ∧ a.ticks ≤ 0) →
    time = max 0 (start + (advances.map (·.ticks)).sum)
  /-- Round and round, it goes on from the start when the next step would leave the clip. -/
  around : start = 0 → ∀ d, 0 < d → (∀ a ∈ advances, a.looping = true ∧ a.ticks = d) →
    time = (advances.length % (⌊clip.duration / d⌋₊ + 1) : ℕ) * d

/-- What holds of all steps holds of those before the last one and of the last one. -/
theorem forall_mem_concat {p : Advance → Prop} {advances : List Advance} {a : Advance}
    (h : ∀ b ∈ advances ++ [a], p b) : (∀ b ∈ advances, p b) ∧ p a :=
  ⟨fun b hb => h b (by simp [hb]), h a (by simp)⟩

theorem stepTimes_forward (hduration : 0 ≤ clip.duration) {advances : List Advance}
    (h : ∀ a ∈ advances, a.looping = false ∧ 0 ≤ a.ticks) :
    0 ≤ (advances.map (·.ticks)).sum ∧
      clip.stepTimes 0 advances = min clip.duration (advances.map (·.ticks)).sum := by
  induction advances using List.reverseRecOn with
  | nil => exact ⟨le_rfl, (min_eq_right hduration).symm⟩
  | append_singleton advances a ih =>
    obtain ⟨hbefore, hlooping, hticks⟩ := forall_mem_concat h
    obtain ⟨hsum, htime⟩ := ih hbefore
    rw [stepTimes_append, htime, hlooping, stepTime_false hduration, List.map_append, List.sum_append]
    simp only [List.map_cons, List.map_nil, List.sum_cons, List.sum_nil, add_zero]
    generalize (advances.map (·.ticks)).sum = sum at *
    refine ⟨by positivity, ?_⟩
    grind

theorem stepTimes_backward {start : ℝ} (hstart : clip.Inside start) {advances : List Advance}
    (h : ∀ a ∈ advances, a.looping = false ∧ a.ticks ≤ 0) :
    (advances.map (·.ticks)).sum ≤ 0 ∧
      clip.stepTimes start advances = max 0 (start + (advances.map (·.ticks)).sum) := by
  obtain ⟨hnonneg, hle⟩ := hstart
  induction advances using List.reverseRecOn with
  | nil => exact ⟨le_rfl, by simp [stepTimes, hnonneg]⟩
  | append_singleton advances a ih =>
    obtain ⟨hbefore, hlooping, hticks⟩ := forall_mem_concat h
    obtain ⟨hsum, htime⟩ := ih hbefore
    rw [stepTimes_append, htime, hlooping, stepTime_false (hnonneg.trans hle), List.map_append, List.sum_append]
    simp only [List.map_cons, List.map_nil, List.sum_cons, List.sum_nil, add_zero]
    generalize (advances.map (·.ticks)).sum = sum at *
    refine ⟨by linarith, ?_⟩
    grind

theorem stepTimes_around {d : ℝ} (hd : 0 < d) (hduration : 0 ≤ clip.duration) {advances : List Advance}
    (h : ∀ a ∈ advances, a.looping = true ∧ a.ticks = d) :
    clip.stepTimes 0 advances = (advances.length % (⌊clip.duration / d⌋₊ + 1) : ℕ) * d := by
  induction advances using List.reverseRecOn with
  | nil => simp [stepTimes]
  | append_singleton advances a ih =>
    obtain ⟨hbefore, hlooping, hticks⟩ := forall_mem_concat h
    rw [stepTimes_append, ih hbefore, hlooping, hticks, List.length_append, List.length_singleton, ← Nat.mod_add_mod]
    have hlt := Nat.mod_lt advances.length (Nat.succ_pos ⌊clip.duration / d⌋₊)
    generalize advances.length % (⌊clip.duration / d⌋₊ + 1) = m at *
    have hstep : (m * d + d : ℝ) = ((m + 1 : ℕ) : ℝ) * d := by push_cast; ring
    rcases (Nat.lt_succ_iff.1 hlt).lt_or_eq with hnext | rfl
    · -- the next multiple is in the clip
      have hle : ((m + 1 : ℕ) : ℝ) * d ≤ clip.duration :=
        (le_div_iff₀ hd).1 ((Nat.le_floor_iff (by positivity)).1 hnext)
      rw [stepTime_of_inside ⟨by positivity, hstep.trans_le hle⟩, Nat.mod_eq_of_lt (Nat.succ_lt_succ hnext), hstep]
    · have hend : clip.duration < ⌊clip.duration / d⌋₊ * d + d := by
        rw [hstep]
        exact (div_lt_iff₀ hd).1 (by exact_mod_cast Nat.lt_floor_add_one (clip.duration / d))
      simp [stepTime, hend]

theorem closedForm_stepTimes {start : ℝ} (hstart : clip.Inside start) (advances : List Advance) :
    clip.ClosedForm start advances (clip.stepTimes start advances) where
  forward hzero h := by
    subst hzero
    exact (stepTimes_forward hstart.2 h).2
  backward h := (stepTimes_backward hstart h).2
  around hzero d hd h := by
    subst hzero
    exact stepTimes_around hd hstart.2 h

end Clip

/-! ## Runs -/

/-- The runs of a system from a state. Some of its moves advance a position, and a run has the list of what they add. -/
inductive Run {σ : Type} (Move : σ → Option Advance → σ → Prop) (start : σ) : List Advance → σ → Prop
  | start : Run Move start [] start
  | rest {advances : List Advance} {s t : σ} (hrun : Run Move start advances s) (hmove : Move s none t) :
      Run Move start advances t
  | advance {advances : List Advance} {s t : σ} {a : Advance} (hrun : Run Move start advances s)
      (hmove : Move s (some a) t) : Run Move start (advances ++ [a]) t

/-- Where the position is found after each move, it is found after a run. -/
theorem Run.stepTimes {σ : Type} {Move : σ → Option Advance → σ → Prop} {clip : Clip ℝ} (At : σ → ℝ → Prop)
    (hrest : ∀ {s t time}, Move s none t → At s time → At t time)
    (hadvance : ∀ {s t a time}, clip.Inside time → Move s (some a) t → At s time →
      At t (clip.stepTime time a.ticks a.looping))
    {s t : σ} {advances : List Advance} (h : Run Move s advances t) {start : ℝ} (hstart : clip.Inside start)
    (hs : At s start) : At t (clip.stepTimes start advances) := by
  induction h with
  | start => exact hs
  | rest _ hmove ih => exact hrest hmove ih
  | advance _ hmove ih =>
    rw [Clip.stepTimes_append]
    exact hadvance (Clip.stepTimes_inside hstart _) hmove ih

namespace Playback

variable {clip : Asset (Clip ℝ)} {playback : Playback ℝ} {time : ℝ}

/-- A position in the clip is valid. -/
theorem settle_of_inside (h : clip.value.Inside time) :
    (⟨time, some clip⟩ : Playback ℝ).settle = ⟨time, some clip⟩ := by
  have hvalid : clip.value.isValidTime time = true := decide_eq_true h.2
  simp only [settle, hvalid, if_true]

/-- Whoever plays the clip next goes on from the position: it is the start, or this clip is played already. -/
structure At (playback : Playback ℝ) (clip : Asset (Clip ℝ)) (time : ℝ) : Prop where
  time_eq : playback.time = time
  clip_eq : time = 0 ∨ playback.clip = some clip

theorem At.settle_switch (h : playback.At clip time) (hinside : clip.value.Inside time) :
    (playback.switch (some clip)).settle = ⟨time, some clip⟩ := by
  have hswitch : playback.switch (some clip) = ⟨time, some clip⟩ := by
    obtain ⟨rfl, hzero | hclip⟩ := h
    · simp only [switch, hzero, ite_self]
    · simp [switch, Asset.same, hclip]
  rw [hswitch, settle_of_inside hinside]

end Playback

/-! ## Players -/

/-- What is assigned to a player that keeps its clip and its position. -/
def Control.Keeps (clip : Asset (Clip ℝ)) : Control ℝ → Prop
  | .setClip other => other = some clip
  | .setTime _ | .update _ _ _ => False
  | _ => True

namespace Player

/-- What an update adds to the position of a player of a clip: the ticks that pass at the rate of the clip if it is
    positive, and else at that of the settings. -/
noncomputable def advance (player : Player ℝ) (clip : Asset (Clip ℝ)) (settings : Settings ℝ) (timestep : ℝ) : Advance :=
  let rate := if 0 < clip.value.ticksPerSecond then clip.value.ticksPerSecond else settings.defaultTicksPerSecond
  { ticks := if player.paused then 0 else rate * timestep * player.speed
    looping := player.looping }

/-- The moves of a player that keeps its clip: updates, and assignments between them. -/
inductive Move (clip : Asset (Clip ℝ)) (player : Player ℝ) : Option Advance → Player ℝ → Prop
  | assign (control : Control ℝ) (hcontrol : control.Keeps clip) : Move clip player none (control.run player)
  | update (skeleton : Skeleton ℝ) (settings : Settings ℝ) (timestep : ℝ) :
      Move clip player (some (player.advance clip settings timestep))
        ((Control.update skeleton settings timestep).run player)

variable {clip : Asset (Clip ℝ)} {player next : Player ℝ} {time : ℝ}

theorem playback_of_assign (hmove : Move clip player none next) (h : player.playback = ⟨time, some clip⟩) :
    next.playback = ⟨time, some clip⟩ := by
  cases hmove with
  | assign control hcontrol =>
    cases control with
    | setClip other =>
      obtain rfl : other = some clip := hcontrol
      simp [Control.run, setClip, Playback.switch, Asset.same, h]
    | setTime => cases hcontrol
    | update => cases hcontrol
    | _ => exact h

/-- An update samples the clip at the position, and then moves the position by a step. -/
theorem run_update (h : player.playback = ⟨time, some clip⟩) (hinside : clip.value.Inside time) (skeleton : Skeleton ℝ)
    (settings : Settings ℝ) (timestep : ℝ) :
    let a := player.advance clip settings timestep
    let next := (Control.update skeleton settings timestep).run player
    next.playback = ⟨clip.value.stepTime time a.ticks a.looping, some clip⟩ ∧
      next.pose = Pose.sample clip.value skeleton.tree time := by
  have hsettle : player.playback.settle = ⟨time, some clip⟩ := by rw [h, Playback.settle_of_inside hinside]
  simp only [Control.run, Player.update, hsettle, advance]
  refine ⟨?_, rfl⟩
  split
  · rw [Clip.stepTime_zero hinside]
  · rfl

theorem playback_of_update {a : Advance} (hinside : clip.value.Inside time) (hmove : Move clip player (some a) next)
    (h : player.playback = ⟨time, some clip⟩) :
    next.playback = ⟨clip.value.stepTime time a.ticks a.looping, some clip⟩ := by
  cases hmove with
  | update skeleton settings timestep => exact (run_update h hinside skeleton settings timestep).1

end Player

/-! ## Clip samplers -/

namespace Edit

variable {α : Type} [Scalar α]

/-- Whether it fails or not, an edit writes over the graph what it writes, if anything. -/
theorem exists_written (edit : Edit α) (graph : Graph α) :
    ∃ footprint : Footprint α, footprint.Written graph (edit.command.run graph) := by
  rw [← perform_snd, perform, perform?_eq, Option.getD_some]
  cases h : edit.outcome graph with
  | error cause => exact ⟨{}, Footprint.written_self graph⟩
  | ok done => exact ⟨edit.footprint graph, (done_of_outcome_eq_ok h).written⟩

/-- An edit changes the inputs of a node at most. -/
theorem exists_overwrite (edit : Edit α) {graph : Graph α} {key : NodeKey} {node : Node α}
    (hnode : graph.node? key = some node) :
    ∃ slots, (edit.command.run graph).node? key = some (node.overwrite slots) := by
  obtain ⟨footprint, hwritten⟩ := edit.exists_written graph
  exact ⟨footprint.slot key, by rw [hwritten.node, hnode, Option.map_some]⟩

end Edit

/-- Commands that leave the position of a clip sampler where it is: all but evaluations, a move of the position, and
    what replaces the nodes of the graph. -/
def Command.Keeps {α : Type} (key : NodeKey) : Command α → Prop
  | .setTime other _ => other ≠ key
  | .evaluate _ | .reset | .clone | .cloneWithVariables _ _ => False
  | _ => True

/-- What a command that leaves a position where it is does to a node. -/
theorem Command.Keeps.exists_node {α : Type} [Scalar α] {command : Command α} {key : NodeKey} (h : command.Keeps key)
    {graph : Graph α} {node : Node α} (hnode : graph.node? key = some node) :
    ∃ slots, (command.run graph).node? key = some (node.overwrite slots) := by
  have hsame : graph.node? key = some (node.overwrite fun _ => none) := by rw [Node.overwrite_none, hnode]
  cases command with
  | addNode kind =>
    have hold : key ≠ graph.nodes.nextKey := by
      rintro rfl
      exact Nat.lt_irrefl _ (Arena.handedOut_of_get? hnode)
    refine ⟨fun _ => none, ?_⟩
    rw [run, Graph.node?, Graph.addNode, Arena.get?_insert, if_neg hold]
    exact hsame
  | setTime other time =>
    refine ⟨fun _ => none, ?_⟩
    rw [run, Graph.node?, Graph.setTime, Arena.get?_modify, if_neg (Ne.symm h)]
    exact hsame
  | addLocalVariable | clearVariables => exact ⟨fun _ => none, hsame⟩
  | setOutput output => exact (Edit.setOutput output).exists_overwrite hnode
  | bindNode key index child => exact (Edit.bindNode key index child).exists_overwrite hnode
  | bindVariable key index variableKey => exact (Edit.bindVariable key index variableKey).exists_overwrite hnode
  | bindNamed key index name => exact (Edit.bindNamed key index name).exists_overwrite hnode
  | bindValue key index value => exact (Edit.bindValue key index value).exists_overwrite hnode
  | clearInput key index => exact (Edit.clearInput key index).exists_overwrite hnode
  | resetInputs key => exact (Edit.resetInputs key).exists_overwrite hnode
  | declareVariable name value => exact (Edit.declareVariable name value).exists_overwrite hnode
  | setVariable name value => exact (Edit.setVariable name value).exists_overwrite hnode
  | setVariableKey key value => exact (Edit.setVariableKey key value).exists_overwrite hnode
  | evaluate | reset | clone | cloneWithVariables => cases h

namespace Graph

/-- The next frame computes a node, and leaves its number there. -/
def Computes {α : Type} [Scalar α] (graph : Graph α) (timestep : α) (key : NodeKey) : Prop :=
  ∃ node, (graph.evaluate timestep).2.node? key = some node ∧ node.lastFrame = graph.frame + 1

theorem WellFormed.computes_iff {α : Type} [Scalar α] {cleared : Prop} {graph : Graph α} (h : graph.WellFormed cleared)
    {timestep : α} {key : NodeKey} {node : Node α} (hnode : graph.node? key = some node) :
    graph.Computes timestep key ↔ key ∈ graph.nextDemand h.acyclic timestep := by
  constructor
  · rintro ⟨after, hafter, hstamp⟩
    exact (h.mem_demand_iff hafter).2 hstamp
  · intro hdemand
    have hafter := (h.progress_evaluate timestep).finished key hdemand
    rw [show graph.nodes.get? key = some node from hnode, Option.map_some] at hafter
    exact ⟨_, hafter, rfl⟩

/-- What a frame adds to the position of a clip sampler that plays a clip: the ticks that pass at the rate of the clip if
    it is positive, and else at that of the settings. -/
noncomputable def advance (graph : Graph ℝ) (h : graph.nodes.Acyclic) (timestep : ℝ) (node : Node ℝ)
    (clip : Asset (Clip ℝ)) : Advance :=
  let frame := graph.nextFrame timestep
  let results := graph.nextMeaning h timestep
  let rate :=
    if 0 < clip.value.ticksPerSecond then clip.value.ticksPerSecond else graph.settings.defaultTicksPerSecond
  { ticks := rate * timestep * frame.floatInput results (node.input 1) 1
    looping := frame.boolInput results (node.input 2) true }

/-- The moves of a graph in which a clip sampler keeps its clip: edits, frames that do not compute the sampler, and
    frames in which it plays the clip. -/
inductive Move (key : NodeKey) (clip : Asset (Clip ℝ)) (graph : Graph ℝ) : Option Advance → Graph ℝ → Prop
  | edit (command : Command ℝ) (hcommand : command.Keeps key) : Move key clip graph none (command.run graph)
  | rest (timestep : ℝ) (hrest : ¬ graph.Computes timestep key) : Move key clip graph none (graph.evaluate timestep).2
  | play (h : graph.nodes.Acyclic) (timestep : ℝ) (node : Node ℝ) (hnode : graph.node? key = some node)
      (hcomputes : graph.Computes timestep key)
      (hclip : (graph.nextFrame timestep).clipInput (node.input 0) = some clip) :
      Move key clip graph (some (graph.advance h timestep node clip)) (graph.evaluate timestep).2

/-- A clip sampler of a graph is at a position of a clip. -/
structure SamplerAt (graph : Graph ℝ) (key : NodeKey) (clip : Asset (Clip ℝ)) (time : ℝ) : Prop where
  reached : graph.Reached
  sampler : ∃ node playback, graph.node? key = some node ∧ node.playback? = some playback ∧ playback.At clip time

variable {graph next : Graph ℝ} {key : NodeKey} {clip : Asset (Clip ℝ)} {time : ℝ}

theorem SamplerAt.rest (h : graph.SamplerAt key clip time) (hmove : Move key clip graph none next) :
    next.SamplerAt key clip time := by
  obtain ⟨hreached, node, playback, hnode, hplayback, hat⟩ := h
  cases hmove with
  | edit command hcommand =>
    obtain ⟨slots, hafter⟩ := hcommand.exists_node hnode
    exact ⟨hreached.step trivial, _, playback, hafter, hplayback, hat⟩
  | rest timestep hrest =>
    have hwell := hreached.wellFormed
    have hdemand := mt (hwell.computes_iff hnode).2 hrest
    have hafter := (hwell.progress_evaluate timestep).untouched key hdemand
    exact ⟨hreached.evaluate timestep, node, playback, hafter.trans hnode, hplayback, hat⟩

/-- A frame in which the sampler plays the clip samples it at the position, and then moves the position by a step. -/
theorem SamplerAt.play (h : graph.SamplerAt key clip time) (hinside : clip.value.Inside time) {a : Advance}
    (hmove : Move key clip graph (some a) next) :
    ∃ node, next.node? key = some node ∧
      node.playback? = some ⟨clip.value.stepTime time a.ticks a.looping, some clip⟩ ∧
      node.pose = Pose.sample clip.value graph.skeleton.value.tree time := by
  obtain ⟨hreached, node, playback, hnode, hplayback, hat⟩ := h
  cases hmove with
  | play hacyclic timestep other hother hcomputes hclip =>
    obtain rfl := Option.some.inj (hnode.symm.trans hother)
    have hwell := hreached.wellFormed
    have hafter := (hwell.progress_evaluate timestep).finished key ((hwell.computes_iff hnode).1 hcomputes)
    rw [show graph.nodes.get? key = some node from hnode, Option.map_some] at hafter
    have hkind : node.kind = .clipSampler := by
      have hfits := (hwell.fits key node hnode).state
      unfold Node.playback? at hplayback
      split at hplayback
      · next hstate =>
        rw [hstate] at hfits
        exact hfits
      · cases hplayback
    have hplay := Frame.playClip_eq (graph.nextFrame timestep) (graph.nextMeaning hacyclic timestep) node
    rw [hplayback, Option.getD_some, Frame.readClip_eq, hclip, Frame.playClip, hat.settle_switch hinside] at hplay
    refine ⟨_, hafter, ?_, ?_⟩
    · simp only [Node.playback?, Frame.finish, Frame.stateAfter, hkind, ← hplay]
      rfl
    · simp only [Node.pose, Frame.finish, Frame.stateAfter, hkind, ← hplay]
      rfl

theorem SamplerAt.advance (h : graph.SamplerAt key clip time) (hinside : clip.value.Inside time) {a : Advance}
    (hmove : Move key clip graph (some a) next) :
    next.SamplerAt key clip (clip.value.stepTime time a.ticks a.looping) := by
  obtain ⟨node, hnode, hplayback, -⟩ := h.play hinside hmove
  have hreached : next.Reached := by
    cases hmove with
    | play => exact h.reached.evaluate _
  exact ⟨hreached, node, _, hnode, hplayback, rfl, .inr rfl⟩

end Graph

/-! ## Both -/

/-- The position of a player that keeps its clip, and that of a clip sampler that does, have a closed form after any run
    from a position in the clip, and the next update samples the clip there. An update adds the ticks that pass at the
    rate of the clip, or at that of the settings if the clip has none, at the speed of the player or of the sampler; for
    a player that is paused it adds none. -/
theorem Playback.closed_form :
    (∀ (clip : Asset (Clip ℝ)) (player next : Player ℝ) (start : ℝ) (advances : List Advance),
      player.playback = ⟨start, some clip⟩ → clip.value.Inside start → Run (Player.Move clip) player advances next →
      ∃ time, next.playback = ⟨time, some clip⟩ ∧ clip.value.ClosedForm start advances time ∧
        ∀ skeleton settings timestep,
          ((Control.update skeleton settings timestep).run next).pose = Pose.sample clip.value skeleton.tree time) ∧
    ∀ (clip : Asset (Clip ℝ)) (key : NodeKey) (graph next : Graph ℝ) (node : Node ℝ) (playback : Playback ℝ) (start : ℝ)
      (advances : List Advance), graph.Reached → graph.node? key = some node → node.playback? = some playback →
      playback.At clip start → clip.value.Inside start → Run (Graph.Move key clip) graph advances next →
      ∃ node playback, next.node? key = some node ∧ node.playback? = some playback ∧
        clip.value.ClosedForm start advances playback.time ∧
        ∀ a after, Graph.Move key clip next (some a) after → ∃ node, after.node? key = some node ∧
          node.pose = Pose.sample clip.value next.skeleton.value.tree playback.time := by
  constructor
  · intro clip player next start advances hplayback hinside hrun
    have hafter := hrun.stepTimes (fun player time => player.playback = ⟨time, some clip⟩)
      Player.playback_of_assign Player.playback_of_update hinside hplayback
    refine ⟨_, hafter, Clip.closedForm_stepTimes hinside advances, fun skeleton settings timestep => ?_⟩
    exact (Player.run_update hafter (Clip.stepTimes_inside hinside advances) skeleton settings timestep).2
  · intro clip key graph next node playback start advances hreached hnode hplayback hat hinside hrun
    have hafter := hrun.stepTimes (fun graph time => graph.SamplerAt key clip time)
      (fun hmove hat => hat.rest hmove) (fun hinside hmove hat => hat.advance hinside hmove) hinside
      ⟨hreached, node, playback, hnode, hplayback, hat⟩
    obtain ⟨node', playback', hnode', hplayback', htime, -⟩ := hafter.sampler
    refine ⟨node', playback', hnode', hplayback', ?_⟩
    rw [htime]
    refine ⟨Clip.closedForm_stepTimes hinside advances, fun a after hmove => ?_⟩
    obtain ⟨node, hnode, -, hpose⟩ := hafter.play (Clip.stepTimes_inside hinside advances) hmove
    exact ⟨node, hnode, hpose⟩

/-- A clip of one tick, at a rate. -/
noncomputable def blink (rate : ℝ) : Asset (Clip ℝ) := ⟨1, ⟨"blink", 1, rate, ∅⟩⟩

noncomputable def eyelid : Asset (Skeleton ℝ) := ⟨0, .ofTree ⟨⟨"root", .identity⟩, .nil⟩⟩

/-- Settings of one tick in a second, for clips that do not give a rate. -/
noncomputable def unhurried : Settings ℝ := ⟨1, 0, .identity⟩

theorem inside_blink (rate : ℝ) : (blink rate).value.Inside 0 := ⟨le_rfl, zero_le_one⟩

/-- Steps of a tick each lead from the start to the end and back. -/
theorem time_of_closedForm_blink {rate : ℝ} {advances : List Advance} {time : ℝ}
    (h : (blink rate).value.ClosedForm 0 advances time)
    (hadvances : ∀ a ∈ advances, a.looping = true ∧ a.ticks = 1) : time = (advances.length % 2 : ℕ) := by
  have hfloor : ⌊(blink rate).value.duration / 1⌋₊ = 1 := by simp [blink]
  rw [h.around rfl 1 one_pos hadvances, hfloor, mul_one]

/-- An update of one second, in which one tick passes. -/
theorem Player.move_tick (player : Player ℝ) (clip : Asset (Clip ℝ)) (settings : Settings ℝ)
    (hrate : (if 0 < clip.value.ticksPerSecond then clip.value.ticksPerSecond else settings.defaultTicksPerSecond) = 1)
    (hspeed : player.speed = 1) (hlooping : player.looping = true) (hpaused : player.paused = false) :
    Move clip player (some ⟨1, true⟩) ((Control.update eyelid.value settings 1).run player) := by
  have hadvance : player.advance clip settings 1 = ⟨1, true⟩ := by
    simpa [advance, hspeed, hlooping, hpaused] using hrate
  rw [← hadvance]
  exact .update _ _ _

/-- A frame of one second, in which one tick passes, in a graph with one sampler. -/
theorem Graph.OneSampler.move_tick {clip : Asset (Clip ℝ)} {graph : Graph ℝ} {controls : Controls} {node : Node ℝ}
    (h : graph.OneSampler controls node (some clip) 1 true)
    (hrate : (if 0 < clip.value.ticksPerSecond then clip.value.ticksPerSecond
      else graph.settings.defaultTicksPerSecond) = 1)
    (hreached : graph.Reached) {key : NodeKey} (houtput : graph.output = some key) (hnode : graph.node? key = some node) :
    Move key clip graph (some ⟨1, true⟩) (graph.evaluate 1).2 := by
  have hwell := hreached.wellFormed
  have hcomputes : graph.Computes 1 key := (hwell.computes_iff hnode).2 ⟨key, houtput, .refl⟩
  have hclip : (graph.nextFrame 1).bound? (node.input 0) = _ := h.clip
  have hspeed : (graph.nextFrame 1).bound? (node.input 1) = _ := h.speed
  have hlooping : (graph.nextFrame 1).bound? (node.input 2) = _ := h.looping
  have hread : (graph.nextFrame 1).clipInput (node.input 0) = some clip := by
    rw [Frame.clipInput_eq, hclip]
    rfl
  have hadvance : graph.advance hwell.acyclic 1 node clip = ⟨1, true⟩ := by
    simp only [advance, Frame.floatInput_of_nodeKey? _ (nodeKey?_of_held h.speed), hspeed,
      Frame.boolInput_of_nodeKey? _ (nodeKey?_of_held h.looping), hlooping]
    simpa [Value.asFloat?, Value.asBool?] using hrate
  rw [← hadvance]
  exact .play hwell.acyclic 1 node hnode hcomputes hread

/-- After two updates of a tick each a player of a clip is at the start again, and after one frame a clip sampler is at
    the end. The rate may be that of the clip, or that of the settings if the clip has none. -/
theorem Playback.closed_form_blink :
    (∃ next, Run (Player.Move (blink 1)) (.ofClip (some (blink 1))) [⟨1, true⟩, ⟨1, true⟩] next ∧
      next.playback = ⟨0, some (blink 1)⟩) ∧
    ((Control.update eyelid.value unhurried 1).run (.ofClip (some (blink 0)))).playback = ⟨1, some (blink 0)⟩ ∧
    ∃ (graph : Graph ℝ) (key : NodeKey) (node : Node ℝ) (playback : Playback ℝ), graph.Reached ∧
      graph.settings = unhurried ∧ Run (Graph.Move key (blink (-1))) graph [⟨1, true⟩] (graph.evaluate 1).2 ∧
      (graph.evaluate 1).2.node? key = some node ∧ node.playback? = some playback ∧ playback.time = 1 := by
  obtain ⟨hplayers, hsamplers⟩ := Playback.closed_form
  refine ⟨?_, ?_, ?_⟩
  · have hmove := fun player => Player.move_tick player (blink 1) .default (if_pos one_pos)
    have hrun := Run.advance (.advance .start (hmove (.ofClip (some (blink 1))) rfl rfl rfl)) (hmove _ rfl rfl rfl)
    obtain ⟨time, hplayback, hclosed, -⟩ := hplayers (blink 1) _ _ 0 _ rfl (inside_blink 1) hrun
    refine ⟨_, hrun, ?_⟩
    rw [hplayback, time_of_closedForm_blink hclosed (by simp)]
    simp
  · have hmove := Player.move_tick (.ofClip (some (blink 0))) (blink 0) unhurried (if_neg (lt_irrefl 0))
    have hrun := Run.advance .start (hmove rfl rfl rfl)
    obtain ⟨time, hplayback, hclosed, -⟩ := hplayers (blink 0) _ _ 0 _ rfl (inside_blink 0) hrun
    rw [hplayback, time_of_closedForm_blink hclosed (by simp)]
    simp
  · obtain ⟨graph, node, -, hreached, -, hsettings, honly, hplayback⟩ :=
      Controls.exists_oneSampler ⟨"clip", "speed", "looping"⟩ (by decide) eyelid unhurried
    obtain ⟨ready, hready, honly, -, hsettings', -⟩ :=
      honly.exists_setVariable hreached ⟨some (blink (-1)), 1, true, 1, .identity⟩
    have hsettings := hsettings'.trans hsettings
    have hrate : ready.settings.defaultTicksPerSecond = 1 := by rw [hsettings, unhurried]
    have hnegative : ¬ (0 : ℝ) < -1 := by norm_num
    obtain ⟨key, houtput, hnode⟩ := Option.bind_eq_some_iff.1 honly.output
    have hrun := Run.advance .start (honly.move_tick ((if_neg hnegative).trans hrate) hready houtput hnode)
    obtain ⟨after, playback, hafter, hplayback, hclosed, -⟩ := hsamplers (blink (-1)) key ready _ node .idle 0 _ hready
      hnode hplayback ⟨rfl, .inl rfl⟩ (inside_blink (-1)) hrun
    refine ⟨ready, key, after, playback, hready, hsettings, hrun, hafter, hplayback, ?_⟩
    rw [time_of_closedForm_blink hclosed (by simp)]
    simp

end Armature
