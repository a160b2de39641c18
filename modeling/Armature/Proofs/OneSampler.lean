import Armature.Player
import Armature.Proofs.Compilation
import Armature.Proofs.Observation

/-!
# Players and clip samplers

A player and a graph whose output is a clip sampler with variables at its inputs play alike (`Graph.OneSampler.perform_eq`).
The player goes to the start of a clip when the clip is assigned, the sampler when it is evaluated next; without a clip
the player stays where it is, and the sampler goes to the start. Between rounds they need not be at the same clip, but
whatever clip comes next finds them at the same position (`Playback.InStep`).
-/

namespace Armature

variable {α : Type}

/-- What is assigned in a round, and how far the round goes. -/
structure Round (α : Type) where
  clip : Option (Asset (Clip α))
  speed : α
  looping : Bool
  timestep : α
  rootTransform : Mat4 α

/-- What is seen after a round. -/
structure Sight (α : Type) where
  palette : Palette α
  pose : Pose α
  time : α

/-- The names of the variables that a clip sampler is played by. -/
structure Controls where
  clip : String
  speed : String
  looping : String

variable [Scalar α]

namespace Player

/-- A player after a round, and its palette, written over what a buffer holds. -/
def round (skeleton : Skeleton α) (settings : Settings α) (buffer : Palette α) (player : Player α) (round : Round α) :
    Palette α × Player α :=
  { player.setClip round.clip with speed := round.speed, looping := round.looping }.update skeleton
    { settings with rootTransform := round.rootTransform } round.timestep buffer

/-- What is seen of a player, round for round. Its palettes are written into one buffer. -/
def perform (skeleton : Skeleton α) (settings : Settings α) (buffer : Palette α) (player : Player α) :
    List (Round α) → List (Option (Sight α))
  | [] => []
  | round :: rounds =>
    let (palette, next) := player.round skeleton settings buffer round
    some ⟨palette, next.pose, next.playback.time⟩ :: next.perform skeleton settings palette rounds

end Player

namespace Graph

/-- A graph after a round, and its palette, written over what a buffer holds. -/
def round (controls : Controls) (buffer : Palette α) (graph : Graph α) (round : Round α) :
    Except Error (Palette α × Graph α) := do
  let graph ← graph.setVariable controls.clip (.animation round.clip)
  let graph ← graph.setVariable controls.speed (.float round.speed)
  let graph ← graph.setVariable controls.looping (.bool round.looping)
  return graph.updateWithRoot round.timestep round.rootTransform buffer

/-- What is seen of a graph beside its palette, if its output is a clip sampler. -/
def sight? (graph : Graph α) (palette : Palette α) : Option (Sight α) := do
  let node ← graph.output.bind graph.node?
  let playback ← node.playback?
  return ⟨palette, node.pose, playback.time⟩

/-- What is seen of a graph, round for round. Its palettes are written into one buffer. -/
def perform (controls : Controls) (buffer : Palette α) (graph : Graph α) :
    List (Round α) → Except Error (List (Option (Sight α)))
  | [] => .ok []
  | round :: rounds => do
    let (palette, next) ← graph.round controls buffer round
    return next.sight? palette :: (← next.perform controls palette rounds)

end Graph

/-! ## Playback -/

/-- Whatever clip comes next finds two playbacks at the same position; without a clip it is the start. -/
structure Playback.InStep (playback other : Playback α) : Prop where
  switch : ∀ clip, playback.switch clip = other.switch clip
  start : (playback.switch none).time = 0

theorem Playback.inStep_of_time_eq_zero {playback other : Playback α} (h : playback.time = 0) (hother : other.time = 0) :
    playback.InStep other where
  switch clip := by simp [switch, h, hother]
  start := by simp [switch, h]

theorem Playback.inStep_self {playback : Playback α} (h : playback.clip = none → playback.time = 0) :
    playback.InStep playback where
  switch _ := rfl
  start := by
    cases hclip : playback.clip with
    | none => simp [switch, h hclip]
    | some clip => simp [switch, Asset.same, hclip]

/-- What a round comes to for a player that is not paused. -/
theorem Player.round_eq {player : Player α} (hpaused : player.paused = false) (skeleton : Skeleton α)
    (settings : Settings α) (buffer : Palette α) (round : Round α) :
    let playback := (player.playback.switch round.clip).settle
    player.round skeleton settings buffer round =
      (skeleton.finalize (playback.pose skeleton.tree) round.rootTransform,
        { player with
          playback := playback.advance settings round.timestep round.speed round.looping
          speed := round.speed
          looping := round.looping
          pose := playback.pose skeleton.tree }) := by
  simp only [Player.round, Player.update, Skeleton.finalizeInto_eq_finalize, Player.setClip, hpaused]
  rfl

/-- A sampler does in a frame what a player does in a round that is in step with it. -/
theorem Playback.InStep.playClip_eq {playback other : Playback α} (h : playback.InStep other) (frame : Frame α)
    (clip : Option (Asset (Clip α))) (speed : α) (looping : Bool) :
    let start := (playback.switch clip).settle
    frame.playClip other clip speed looping =
      .sampler (start.advance frame.settings frame.timestep speed looping) (start.pose frame.tree) := by
  rw [Frame.playClip, ← h.switch]
  cases clip with
  | some clip => rfl
  | none =>
    have hstart : playback.switch none = ⟨0, none⟩ := congrArg (Playback.mk · none) h.start
    simp [hstart, settle, advance]

/-- Two playbacks that were in step are at the same position after a round, and stay in step. -/
theorem Playback.InStep.advance {playback other : Playback α} (h : playback.InStep other) (settings : Settings α)
    (clip : Option (Asset (Clip α))) (timestep speed : α) (looping : Bool) :
    let next := (playback.switch clip).settle.advance settings timestep speed looping
    next.InStep next := by
  refine inStep_self fun hnone => ?_
  simp only [clip_advance, clip_settle, clip_switch] at hnone
  subst hnone
  exact h.start

/-! ## Graphs with one sampler -/

omit [Scalar α] in
theorem VariableTable.Exact.find?_of_held {table : VariableTable α} (h : table.Exact) {slot : Slot} {v : Variable α}
    (hslot : Graph.held table slot = some v) {name : String} (hname : v.name = some name) :
    table.find? name = some v := by
  obtain ⟨key, -, hv⟩ := Option.bind_eq_some_iff.1 hslot
  exact (h.find?_eq_some_iff name v).2 ⟨key, hv, hname⟩

omit [Scalar α] in
/-- A value can be assigned to the variable at an input if it is of the same type, and then the inputs alone read it
    that read a variable of this type. -/
theorem VariableTable.Exact.exists_set {table : VariableTable α} (h : table.Exact) (value : Value α) {slot : Slot}
    {name : String} {old : Value α} (hslot : Graph.held table slot = some ⟨some name, old⟩)
    (htype : old.type = value.type) :
    ∃ next, table.set name value = .ok next ∧ next.Exact ∧ Graph.held next slot = some ⟨some name, value⟩ ∧
      ∀ other v, Graph.held table other = some v → v.value.type ≠ value.type → Graph.held next other = some v := by
  have hfind := h.find?_of_held hslot rfl
  have hset : (table.set name value).map (fun _ => ()) = .ok () := by
    rw [h.map_set, hfind]
    simp [Variable.assign, htype, Except.map]
  obtain ⟨next, hnext, -⟩ := Graph.map_eq_ok hset
  refine ⟨next, hnext, h.set hnext, ?_, fun other v hother hne => ?_⟩
  · rw [h.held_set hnext, hslot]
    simp [Graph.reassign]
  · rw [h.held_set hnext, hother, Option.map_some, Graph.reassign, if_neg]
    intro hname
    -- a variable of the name would be the one that is assigned
    have hv := (h.find?_of_held hother hname).symm.trans hfind
    obtain rfl := Option.some.inj hv
    exact hne htype

namespace Graph

/-- The output of a graph is a clip sampler whose inputs are named variables with the given values. -/
structure OneSampler (graph : Graph α) (controls : Controls) (node : Node α) (clip : Option (Asset (Clip α)))
    (speed : α) (looping : Bool) : Prop where
  output : graph.output.bind graph.node? = some node
  kind : node.kind = .clipSampler
  clip : held graph.table (node.input 0) = some ⟨some controls.clip, .animation clip⟩
  speed : held graph.table (node.input 1) = some ⟨some controls.speed, .float speed⟩
  looping : held graph.table (node.input 2) = some ⟨some controls.looping, .bool looping⟩

variable {graph : Graph α} {controls : Controls} {node : Node α} {clip : Option (Asset (Clip α))} {speed : α}
  {looping : Bool}

omit [Scalar α] in
theorem setVariable_of_set (graph : Graph α) {name : String} {value : Value α} {table : VariableTable α}
    (h : graph.table.set name value = .ok table) : graph.setVariable name value = .ok { graph with table } := by
  rw [setVariable, h]
  rfl

theorem Reached.setVariable (h : graph.Reached) {name : String} {value : Value α} {next : Graph α}
    (hnext : graph.setVariable name value = .ok next) : next.Reached :=
  h.of_eq_ok (.setVariable name value) trivial rfl hnext

theorem Reached.evaluate (h : graph.Reached) (timestep : α) : (graph.evaluate timestep).2.Reached := by
  have hnext : ((Command.evaluate timestep).run graph).Reached := h.step trivial
  exact hnext

/-- The values of a round can be assigned, and the sampler reads them then. -/
theorem OneSampler.exists_setVariable (h : graph.OneSampler controls node clip speed looping) (hreached : graph.Reached)
    (round : Round α) :
    ∃ ready : Graph α, ready.Reached ∧ ready.OneSampler controls node round.clip round.speed round.looping ∧
      ready.skeleton = graph.skeleton ∧ ready.settings = graph.settings ∧
      ∀ buffer, graph.round controls buffer round =
        .ok (ready.updateWithRoot round.timestep round.rootTransform buffer) := by
  have hexact := hreached.wellFormed.table.exact
  obtain ⟨first, hfirst, hexact, hclip, hfirst'⟩ := hexact.exists_set (.animation round.clip) h.clip rfl
  have hspeed := hfirst' _ _ h.speed (by simp [Value.type])
  have hlooping := hfirst' _ _ h.looping (by simp [Value.type])
  obtain ⟨second, hsecond, hexact, hspeed, hsecond'⟩ := hexact.exists_set (.float round.speed) hspeed rfl
  have hclip := hsecond' _ _ hclip (by simp [Value.type])
  have hlooping := hsecond' _ _ hlooping (by simp [Value.type])
  obtain ⟨third, hthird, -, hlooping, hthird'⟩ := hexact.exists_set (.bool round.looping) hlooping rfl
  have hclip := hthird' _ _ hclip (by simp [Value.type])
  have hspeed := hthird' _ _ hspeed (by simp [Value.type])
  have hfirst := graph.setVariable_of_set hfirst
  have hsecond := setVariable_of_set { graph with table := first } hsecond
  have hthird := setVariable_of_set { graph with table := second } hthird
  refine ⟨{ graph with table := third }, ?_, ⟨h.output, h.kind, hclip, hspeed, hlooping⟩, rfl, rfl, fun buffer => ?_⟩
  · exact ((hreached.setVariable hfirst).setVariable hsecond).setVariable hthird
  · simp only [Graph.round, hfirst, hsecond, hthird, bind, Except.bind]
    rfl

omit [Scalar α] in
theorem nodeKey?_of_held {table : VariableTable α} {slot : Slot} {v : Variable α} (h : held table slot = some v) :
    slot.nodeKey? = none := by
  cases slot with
  | node => cases h
  | _ => rfl

/-- In a frame the sampler plays its clip. -/
theorem OneSampler.stateAfter (h : graph.OneSampler controls node clip speed looping) (timestep : α)
    (results : Frame.Results α) :
    (graph.nextFrame timestep).stateAfter results node =
      (graph.nextFrame timestep).playClip (node.playback?.getD .idle) clip speed looping := by
  have hclip : (graph.nextFrame timestep).bound? (node.input 0) = _ := h.clip
  have hspeed : (graph.nextFrame timestep).bound? (node.input 1) = _ := h.speed
  have hlooping : (graph.nextFrame timestep).bound? (node.input 2) = _ := h.looping
  have hplay := Frame.playClip_eq (graph.nextFrame timestep) results node
  rw [Frame.readClip, hclip, Frame.floatInput_of_nodeKey? _ (nodeKey?_of_held h.speed), hspeed,
    Frame.boolInput_of_nodeKey? _ (nodeKey?_of_held h.looping), hlooping] at hplay
  simp only [Frame.stateAfter, h.kind]
  exact hplay.symm

theorem WellFormed.updateWithRoot_eq {cleared : Prop} (h : graph.WellFormed cleared) (timestep : α)
    (rootParent : Mat4 α) (buffer : Palette α) :
    graph.updateWithRoot timestep rootParent buffer =
      (graph.skeleton.value.finalize ((graph.evaluate timestep).2.outputPose.getD ∅) rootParent,
        (graph.evaluate timestep).2) := by
  have hskeleton := h.skeleton_evaluate timestep
  rw [← h.evaluate_fst, ← hskeleton, ← Skeleton.finalizeInto_eq_finalize _ buffer]
  rfl

/-- A frame leaves a graph with one sampler, which has played its clip. -/
theorem OneSampler.evaluate (h : graph.OneSampler controls node clip speed looping) (hreached : graph.Reached)
    (timestep : α) :
    ∃ after, (graph.evaluate timestep).2.OneSampler controls after clip speed looping ∧
      after.state = (graph.nextFrame timestep).playClip (node.playback?.getD .idle) clip speed looping := by
  have hwell := hreached.wellFormed
  have hnext := hwell.evaluate_snd timestep
  obtain ⟨key, houtput, hnode⟩ := Option.bind_eq_some_iff.1 h.output
  -- the output is demanded, so it has been computed
  have hafter := (hwell.progress_evaluate timestep).finished key ⟨key, houtput, .refl⟩
  rw [show graph.nodes.get? key = some node from hnode, Option.map_some] at hafter
  refine ⟨(graph.nextFrame timestep).finish (graph.nextMeaning hwell.acyclic timestep) node,
    ⟨?_, h.kind, ?_, ?_, ?_⟩, h.stateAfter timestep _⟩
  · rw [hnext, houtput]
    exact hafter
  · exact (congrArg (fun g => held g.table (node.input 0)) hnext).trans h.clip
  · exact (congrArg (fun g => held g.table (node.input 1)) hnext).trans h.speed
  · exact (congrArg (fun g => held g.table (node.input 2)) hnext).trans h.looping

/-! ## Rounds -/

/-- A player, which is not paused, and the one sampler of a graph are in step. -/
structure InStep (graph : Graph α) (controls : Controls) (skeleton : Skeleton α) (settings : Settings α)
    (player : Player α) : Prop where
  reached : graph.Reached
  skeleton : graph.skeleton.value = skeleton
  settings : graph.settings = settings
  sampler : ∃ node clip speed looping, graph.OneSampler controls node clip speed looping ∧
    player.playback.InStep (node.playback?.getD .idle)
  unpaused : player.paused = false

/-- The same is seen of a player and of a graph that are in step after a round, and they stay in step. -/
theorem InStep.round {skeleton : Skeleton α} {settings : Settings α} {player : Player α}
    (h : graph.InStep controls skeleton settings player) (playerBuffer buffer : Palette α) (round : Round α)
    {palette : Palette α} {after : Player α}
    (hplayer : player.round skeleton settings playerBuffer round = (palette, after)) :
    ∃ next, graph.round controls buffer round = .ok (palette, next) ∧ next.InStep controls skeleton settings after ∧
      next.sight? palette = some ⟨palette, after.pose, after.playback.time⟩ := by
  obtain ⟨hreached, rfl, rfl, ⟨node, _, _, _, honly, hstep⟩, hunpaused⟩ := h
  obtain ⟨ready, hready, honly, hskeleton, hsettings, hround⟩ := honly.exists_setVariable hreached round
  have hwell := hready.wellFormed
  have hnext := hwell.evaluate_snd round.timestep
  obtain ⟨node', honly', hstate⟩ := honly.evaluate hready round.timestep
  rw [hstep.playClip_eq] at hstate
  rw [Player.round_eq hunpaused, ← hskeleton, ← hsettings] at hplayer
  obtain ⟨rfl, rfl⟩ := Prod.mk.inj hplayer
  have hpose : (ready.evaluate round.timestep).2.outputPose = some node'.pose := by
    rw [outputPose, honly'.output, Option.map_some]
  refine ⟨(ready.evaluate round.timestep).2, ?_, ⟨?_, ?_, ?_, ?_, hunpaused⟩, ?_⟩
  · rw [hround, hwell.updateWithRoot_eq, hpose, Option.getD_some, Node.pose, hstate]
    rfl
  · exact hready.evaluate round.timestep
  · rw [hnext, hskeleton]
  · rw [hnext, hsettings]
  · refine ⟨node', _, _, _, honly', ?_⟩
    rw [Node.playback?, hstate, Option.getD_some]
    exact hstep.advance _ _ _ _ _
  · rw [sight?, honly'.output, Option.bind_eq_bind, Option.bind_some, Node.playback?, hstate, Node.pose, hstate]
    rfl

theorem InStep.perform {skeleton : Skeleton α} {settings : Settings α} {player : Player α}
    (h : graph.InStep controls skeleton settings player) (playerBuffer buffer : Palette α) (rounds : List (Round α)) :
    graph.perform controls buffer rounds = .ok (player.perform skeleton settings playerBuffer rounds) := by
  induction rounds generalizing graph player playerBuffer buffer with
  | nil => rfl
  | cons round rounds ih =>
    rcases hplayer : player.round skeleton settings playerBuffer round with ⟨palette, after⟩
    obtain ⟨next, hround, hnext, hsight⟩ := h.round playerBuffer buffer round hplayer
    rw [Graph.perform, hround, Player.perform, hplayer]
    simp only [bind, Except.bind, ih hnext palette palette, hsight]
    rfl

/-- A player that starts at any clip and a graph with one sampler that is at the start play alike: after every round of
    the same assignments, with the same timestep and root transform, the palettes, the poses and the positions are the
    same. -/
theorem OneSampler.perform_eq (h : graph.OneSampler controls node clip speed looping) (hreached : graph.Reached)
    (htime : node.playback?.map (·.time) = some 0) (initial : Option (Asset (Clip α)))
    (playerBuffer buffer : Palette α) (rounds : List (Round α)) :
    graph.perform controls buffer rounds =
      .ok ((Player.ofClip initial).perform graph.skeleton.value graph.settings playerBuffer rounds) := by
  obtain ⟨playback, hplayback, htime⟩ := Option.map_eq_some_iff.1 htime
  refine InStep.perform ⟨hreached, rfl, rfl, ⟨node, clip, speed, looping, h, ?_⟩, rfl⟩ playerBuffer buffer rounds
  rw [hplayback, Option.getD_some]
  exact Playback.inStep_of_time_eq_zero rfl htime

end Graph

/-! ## A graph with one sampler -/

namespace Controls

variable {controls : Controls}

/-- One clip sampler, with all of its inputs in named variables. -/
def description (controls : Controls) : Description α where
  declarations := [⟨controls.clip, .animation none⟩, ⟨controls.speed, .float 1⟩, ⟨controls.looping, .bool true⟩]
  nodes := [⟨.clipSampler, [some (.variable controls.clip), some (.variable controls.speed),
    some (.variable controls.looping)]⟩]
  output := some 0

theorem valid_description (hnames : [controls.clip, controls.speed, controls.looping].Nodup) (clips : ClipLibrary α) :
    controls.description.Valid clips where
  names := hnames
  clips := by simp [description]
  arity := by simp [description, NodeKind.arity, NodeKind.inputs]
  children := by simp [description]
  output := by simp [description]
  variableNames := by simp [description, Description.names]
  acyclic place hcycle := by
    obtain ⟨child, ⟨node, hnode, hchild⟩, -⟩ := Relation.TransGen.head'_iff.1 hcycle
    have hnode := List.mem_of_getElem? hnode
    simp only [description, List.mem_singleton] at hnode
    subst hnode
    simp at hchild

end Controls

/-- An input that is described by the name of a variable reads the variable that is declared under it. -/
theorem Description.Builds.held {d : Description α} {clips : ClipLibrary α} {skeleton : Asset (Skeleton α)}
    {settings : Settings α} {keys : List NodeKey} {inputs : Nat × Nat → Option (InputDescription α)}
    {output : Option NodeKey} {graph : Graph α} (h : d.Builds clips skeleton settings keys inputs output graph)
    {place index : Nat} {key : NodeKey} {node : Node α} (hkey : keys[place]? = some key)
    (hnode : graph.node? key = some node) {name : String} (hinput : inputs (place, index) = some (.variable name))
    {v : Variable α} (hdeclared : Declares clips d.declarations name v) :
    Graph.held graph.table (node.input index) = some v := by
  have hfind := (h.named name v).2 hdeclared
  have hslot := h.slot (place, index)
  rw [hinput, slotAt_of_node? hkey hnode] at hslot
  generalize node.input index = slot at hslot
  cases hslot with
  | toNamed hvariable =>
    rw [VariableTable.find?, hvariable] at hfind
    exact hfind

/-- For every skeleton there is a graph with one sampler, played by variables of any names. -/
theorem Controls.exists_oneSampler (controls : Controls)
    (hnames : [controls.clip, controls.speed, controls.looping].Nodup) (skeleton : Asset (Skeleton α))
    (settings : Settings α) :
    ∃ graph node, controls.description.compile skeleton ∅ settings = .ok graph ∧ graph.Reached ∧
      graph.skeleton = skeleton ∧ graph.settings = settings ∧ graph.OneSampler controls node none 1 true ∧
      node.playback? = some .idle := by
  obtain ⟨graph, hcompile⟩ := (controls.valid_description hnames ∅).exists_compile skeleton settings
  obtain ⟨-, keys, hbuilds⟩ := Description.builds_of_compile hcompile
  obtain ⟨key, rfl⟩ := List.length_eq_one_iff.1 hbuilds.length
  have hkey : [key][0]? = some key := rfl
  obtain ⟨slots, -, hnode⟩ := hbuilds.node 0 key _ hkey rfl
  have houtput : graph.output = some key := hbuilds.output_eq
  refine ⟨graph, _, hcompile, hbuilds.reached.reached, hbuilds.skeleton_eq, hbuilds.settings_eq,
    ⟨?_, rfl, hbuilds.held hkey hnode rfl ?_, hbuilds.held hkey hnode rfl ?_, hbuilds.held hkey hnode rfl ?_⟩, rfl⟩
  · rw [houtput, Option.bind_some, hnode]
  · exact ⟨⟨controls.clip, .animation none⟩, by simp [description], rfl, _, .noClip, rfl⟩
  · exact ⟨⟨controls.speed, .float 1⟩, by simp [description], rfl, _, .float 1, rfl⟩
  · exact ⟨⟨controls.looping, .bool true⟩, by simp [description], rfl, _, .bool true, rfl⟩

/-- A clip to its end, then none, then the clip again, at a speed that is not a number. -/
def encore : List (Round Binary32) :=
  [⟨some hop, 1, false, 1, .identity⟩, ⟨some hop, 1, false, 1, .identity⟩, ⟨none, 1, true, 1, .identity⟩,
    ⟨some hop, 0 / 0, true, 1, .identity⟩]

/-- The bone goes up, is left alone, and is down again. -/
theorem Graph.perform_eq_encore :
    ∃ graph : Graph Binary32, graph.perform ⟨"clip", "speed", "looping"⟩ #[] encore =
      .ok ((Player.ofClip none).perform oneBone.value .default #[] encore) ∧
    ((Player.ofClip none).perform oneBone.value .default #[] encore).map (·.bind (·.pose["root"]?)) =
      [some .identity, some (.ofTranslation ⟨0, 1, 0⟩), none, some .identity] := by
  obtain ⟨graph, node, -, hreached, hskeleton, hsettings, honly, hplayback⟩ :=
    Controls.exists_oneSampler ⟨"clip", "speed", "looping"⟩ (by decide) oneBone .default
  have hperform := honly.perform_eq hreached (by rw [hplayback]; rfl) none #[] #[] encore
  rw [hskeleton, hsettings] at hperform
  exact ⟨graph, hperform, by decide⟩

end Armature
