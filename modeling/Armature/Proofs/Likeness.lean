import Armature.Proofs.Evaluation
import Mathlib.Logic.Relator

/-!
# Graphs that compute alike

What a frame computes depends on little: on the kinds and states of the nodes, and on what each of their inputs sees, a
node whose result is of the type that the input takes (`Graph.childAt?`), or else a value of that type
(`VariableTable.valueAt?`). If corresponding nodes of two graphs are alike in this, a frame computes them both or
neither, and to the same states (`Graph.Alike.evaluate`), whatever the keys, the numbers of the frames and the nodes
around them are.
-/

namespace Armature

variable {α : Type}

namespace InputType

/-- The type of the results that an input takes from nodes. -/
def resultType? : InputType → Option ResultType
  | clip => none
  | pose => some .pose
  | bool => some .bool
  | float => some .float

/-- The type of the values that an input takes from variables. -/
def valueType? : InputType → Option VariableType
  | clip => some .animation
  | pose => none
  | bool => some .bool
  | float => some .float

end InputType

/-- The node after a computation in a frame. -/
def Node.computed (node : Node α) (frame : Nat) (state : NodeState α) : Node α :=
  { node with state, lastFrame := frame, evaluations := node.evaluations + 1 }

/-- What a slot that is bound to no node reads: the variable that it is bound to, if that is there. -/
def Graph.held (table : VariableTable α) (slot : Slot) : Option (Variable α) :=
  slot.variableKey?.bind table.get?

/-- The value that an input sees: that of the variable at the input, if it is of the type that the input takes. -/
def VariableTable.valueAt? (table : VariableTable α) (expected : InputType) (slot : Slot) : Option (Value α) :=
  ((Graph.held table slot).map (·.value)).filter fun value => expected.valueType? = some value.type

/-- The node that an input sees: the node at the input, if its result is of the type that the input takes. -/
def Graph.childAt? (graph : Graph α) (expected : InputType) (slot : Slot) : Option NodeKey :=
  expected.resultType?.bind fun type => Frame.typedChild? graph.nodes type slot

namespace Frame

/-- The inputs of two nodes of one kind read alike, each in its frame and among its results. -/
structure ReadsAlike (frame other : Frame α) (results results' : Results α) (node node' : Node α) : Prop where
  pose : ∀ index, node.kind.inputs[index]? = some .pose →
    poseInput results (node.input index) = poseInput results' (node'.input index)
  bool : ∀ index default, node.kind.inputs[index]? = some .bool →
    frame.boolInput results (node.input index) default = other.boolInput results' (node'.input index) default
  float : ∀ index default, node.kind.inputs[index]? = some .float →
    frame.floatInput results (node.input index) default = other.floatInput results' (node'.input index) default
  clip : ∀ index, node.kind.inputs[index]? = some .clip →
    frame.clipInput (node.input index) = other.clipInput (node'.input index)

/-- Two frames differ in their tables and numbers alone. -/
def Alike (frame other : Frame α) : Prop := ∃ table number, other = { frame with table, number }

section ReadsAlike

variable {frame other : Frame α} {results results' : Results α} {node node' : Node α}

/-- A computation reads nodes at inputs that take results of the type. -/
theorem exists_input_of_mem_reads {read : ResultType × Nat} (h : read ∈ frame.reads results node) :
    ∃ expected, node.kind.inputs[read.2]? = some expected ∧ expected.resultType? = some read.1 := by
  unfold reads at h
  cases hkind : node.kind with
  | bool op =>
    rcases op with op | op
    · cases op <;> simp only [hkind, List.mem_cons, List.not_mem_nil, or_false] at h <;>
        rcases h with rfl | rfl <;> exact ⟨_, rfl, rfl⟩
    · simp only [hkind, List.mem_cons, List.not_mem_nil, or_false] at h
      rcases h with rfl | rfl <;> exact ⟨_, rfl, rfl⟩
  | float op =>
    cases op <;> simp [hkind, FloatOp.isUnary] at h <;> rcases h with rfl | rfl <;> exact ⟨_, rfl, rfl⟩
  | selectPose =>
    simp only [hkind, List.mem_cons, List.not_mem_nil, or_false] at h
    rcases h with rfl | rfl
    · exact ⟨_, rfl, rfl⟩
    · cases frame.boolInput results (node.input 2) false <;> exact ⟨_, rfl, rfl⟩
  | _ =>
    simp only [hkind, List.mem_cons, List.not_mem_nil, or_false] at h
    rcases h with rfl | rfl | rfl <;> exact ⟨_, rfl, rfl⟩

theorem ReadsAlike.reads (h : frame.ReadsAlike other results results' node node') (hkind : node.kind = node'.kind) :
    frame.reads results node = other.reads results' node' := by
  unfold Frame.reads
  rw [← hkind]
  cases hk : node.kind with
  | selectPose => simp only [h.bool 2 false (by rw [hk]; rfl)]
  | bool op =>
    rcases op with op | op
    · cases op <;> rfl
    · rfl
  | _ => rfl

variable [Scalar α]

theorem ReadsAlike.sampledPose (h : frame.ReadsAlike other results results' node node') (hframe : frame.Alike other)
    (hkind : node.kind = .clipSampler) (hstate : node.state = node'.state) :
    frame.sampledPose node = other.sampledPose node' := by
  have hplayback : node.playback? = node'.playback? := by rw [Node.playback?, Node.playback?, hstate]
  have hclip := h.clip 0 (by rw [hkind]; rfl)
  obtain ⟨table, number, rfl⟩ := hframe
  rw [Frame.sampledPose, Frame.sampledPose, hclip, hplayback]

theorem ReadsAlike.nextPlayback (h : frame.ReadsAlike other results results' node node')
    (hframe : frame.Alike other) (hkind : node.kind = .clipSampler) (hstate : node.state = node'.state) :
    frame.nextPlayback results node = other.nextPlayback results' node' := by
  have hplayback : node.playback? = node'.playback? := by rw [Node.playback?, Node.playback?, hstate]
  have hclip := h.clip 0 (by rw [hkind]; rfl)
  have hspeed := h.float 1 1 (by rw [hkind]; rfl)
  have hlooping := h.bool 2 true (by rw [hkind]; rfl)
  obtain ⟨table, number, rfl⟩ := hframe
  rw [Frame.nextPlayback, Frame.nextPlayback, hclip, hspeed, hlooping, hplayback]

end ReadsAlike

end Frame

/-- A unary operator gives the same whatever stands for its second operand. -/
theorem FloatOp.apply_of_isUnary [Scalar α] {op : FloatOp} (h : op.isUnary) (a b c : α) :
    op.apply a b = op.apply a c := by
  cases op <;> first | rfl | cases h

namespace Frame

variable [Scalar α] {frame other : Frame α} {results results' : Results α} {node node' : Node α}

theorem ReadsAlike.operation (h : frame.ReadsAlike other results results' node node') (hframe : frame.Alike other)
    (hkind : node.kind = node'.kind) (hstate : node.state = node'.state) :
    frame.operation results node = other.operation results' node' := by
  have htree : frame.tree = other.tree := by
    obtain ⟨table, number, rfl⟩ := hframe
    rfl
  unfold Frame.operation
  rw [← hkind]
  cases hk : node.kind with
  | clipSampler => simp only [h.sampledPose hframe hk hstate]
  | blend | additiveBlend =>
    simp only [Frame.weightInput, htree, h.pose 0 (by rw [hk]; rfl), h.pose 1 (by rw [hk]; rfl),
      h.float 2 0 (by rw [hk]; rfl)]
  | calculateAdditive => simp only [htree, h.pose 0 (by rw [hk]; rfl), h.pose 1 (by rw [hk]; rfl)]
  | selectPose =>
    have hbranch : ∀ b : Bool, node.kind.inputs[if b then 1 else 0]? = some .pose := by
      intro b
      rw [hk]
      cases b <;> rfl
    simp only [h.bool 2 false (by rw [hk]; rfl), h.pose _ (hbranch _)]
  | bool op =>
    rcases op with op | op
    · have hfirst := h.bool 0 false (by rw [hk]; cases op <;> rfl)
      cases op with
      | not => simp only [hfirst, LogicOp.apply]
      | _ => simp only [hfirst, h.bool 1 false (by rw [hk]; rfl)]
    · simp only [h.float 0 0 (by rw [hk]; rfl), h.float 1 0 (by rw [hk]; rfl)]
  | float op =>
    have hfirst := h.float 0 0 (by rw [hk]; cases op <;> rfl)
    by_cases hunary : op.isUnary
    · simp only [hfirst]
      rw [FloatOp.apply_of_isUnary hunary]
    · have hsecond := h.float 1 0 (by rw [hk]; cases op <;> first | rfl | exact absurd rfl hunary)
      simp only [hfirst, hsecond]

theorem ReadsAlike.stateAfter (h : frame.ReadsAlike other results results' node node') (hframe : frame.Alike other)
    (hkind : node.kind = node'.kind) (hstate : node.state = node'.state) :
    frame.stateAfter results node = other.stateAfter results' node' := by
  unfold Frame.stateAfter
  rw [h.operation hframe hkind hstate, ← hkind]
  cases hk : node.kind with
  | clipSampler => simp only [h.nextPlayback hframe hk hstate, h.sampledPose hframe hk hstate]
  | _ => rfl

end Frame

namespace Graph

/-- Two inputs that take values of one type see corresponding nodes, or none and the same value, or nothing. -/
structure SlotAlike (r : NodeKey → NodeKey → Prop) (graph other : Graph α) (expected : InputType)
    (slot slot' : Slot) : Prop where
  child : Option.Rel r (graph.childAt? expected slot) (other.childAt? expected slot')
  value : graph.table.valueAt? expected slot = other.table.valueAt? expected slot'

/-- Two nodes of one kind and state whose inputs see alike. -/
structure NodeAlike (r : NodeKey → NodeKey → Prop) (graph other : Graph α) (node node' : Node α) : Prop where
  kind : node.kind = node'.kind
  state : node.state = node'.state
  inputs : ∀ index expected, node.kind.inputs[index]? = some expected →
    SlotAlike r graph other expected (node.input index) (node'.input index)

/-- Two graphs of one skeleton and with the same settings, whose outputs correspond and in which nodes that correspond
    are alike. -/
structure Alike (r : NodeKey → NodeKey → Prop) (graph other : Graph α) : Prop where
  skeleton : graph.skeleton = other.skeleton
  settings : graph.settings = other.settings
  unique : Relator.BiUnique r
  output : Option.Rel r graph.output other.output
  nodes : ∀ key key', r key key' → ∃ node node', graph.node? key = some node ∧ other.node? key' = some node' ∧
    NodeAlike r graph other node node'

variable {r : NodeKey → NodeKey → Prop} {graph other : Graph α}

/-! ## What is seen -/

theorem rel_childAt? {slot slot' : Slot}
    (h : ∀ type, Option.Rel r (Frame.typedChild? graph.nodes type slot) (Frame.typedChild? other.nodes type slot'))
    (expected : InputType) : Option.Rel r (graph.childAt? expected slot) (other.childAt? expected slot') := by
  unfold childAt?
  cases expected.resultType? with
  | none => exact .none
  | some type => exact h type

/-- Corresponding nodes of one kind are seen by the same inputs. -/
theorem rel_typedChild? {key key' : NodeKey} (hr : r key key') {node node' : Node α}
    (hnode : graph.node? key = some node) (hnode' : other.node? key' = some node') (hkind : node.kind = node'.kind)
    (type : ResultType) :
    Option.Rel r (Frame.typedChild? graph.nodes type (.node key)) (Frame.typedChild? other.nodes type (.node key')) := by
  have hnode : graph.nodes.get? key = some node := hnode
  have hnode' : other.nodes.get? key' = some node' := hnode'
  simp only [Frame.typedChild?, Slot.nodeKey?, Option.filter_some, hnode, hnode', Option.any_some, hkind]
  split
  · exact .some hr
  · exact .none

/-! ## Symmetry -/

theorem optionRel_flip {β γ : Type} {s : β → γ → Prop} {a : Option β} {b : Option γ} (h : Option.Rel s a b) :
    Option.Rel (flip s) b a := by
  cases h with
  | some h => exact .some h
  | none => exact .none

theorem NodeAlike.symm {node node' : Node α} (h : NodeAlike r graph other node node') :
    NodeAlike (flip r) other graph node' node where
  kind := h.kind.symm
  state := h.state.symm
  inputs index expected hexpected := by
    rw [← h.kind] at hexpected
    obtain ⟨hchild, hvalue⟩ := h.inputs index expected hexpected
    exact ⟨optionRel_flip hchild, hvalue.symm⟩

theorem Alike.symm (h : Alike r graph other) : Alike (flip r) other graph where
  skeleton := h.skeleton.symm
  settings := h.settings.symm
  unique := ⟨fun _ _ _ ha hb => h.unique.2 ha hb, fun _ _ _ ha hb => h.unique.1 ha hb⟩
  output := optionRel_flip h.output
  nodes key key' hr := by
    obtain ⟨node, node', hnode, hnode', halike⟩ := h.nodes key' key hr
    exact ⟨node', node, hnode', hnode, halike.symm⟩

/-! ## Reading -/

/-- What an input makes of the variable that it is bound to, if it takes values of one type alone. -/
theorem bind_bound? {β : Type} {frame : Frame α} {table : VariableTable α} (htable : frame.table = table)
    {expected : InputType} {cast : Value α → Option β}
    (hcast : ∀ value, expected.valueType? ≠ some value.type → cast value = none) (slot : Slot) :
    (frame.bound? slot).bind (fun v => cast v.value) = (table.valueAt? expected slot).bind cast := by
  have hbound : frame.bound? slot = held table slot := by rw [Frame.bound?, htable, held]
  rw [hbound, VariableTable.valueAt?]
  cases held table slot with
  | none => rfl
  | some v =>
    by_cases htype : expected.valueType? = some v.value.type
    · simp [Option.filter_some, htype]
    · simp [Option.filter_some, htype, hcast v.value htype]

theorem asBool?_eq_none (value : Value α) (h : InputType.valueType? .bool ≠ some value.type) :
    value.asBool? = none := by
  cases value with
  | bool b => exact absurd rfl h
  | _ => rfl

theorem asFloat?_eq_none (value : Value α) (h : InputType.valueType? .float ≠ some value.type) :
    value.asFloat? = none := by
  cases value with
  | float x => exact absurd rfl h
  | _ => rfl

theorem asClip?_eq_none (value : Value α) (h : InputType.valueType? .clip ≠ some value.type) :
    value.asClip? = none := by
  cases value with
  | animation clip => exact absurd rfl h
  | _ => rfl

variable [Scalar α] {cleared cleared' : Prop}

theorem solves_nextMeaning (graph : Graph α) (hacyclic : graph.nodes.Acyclic) (timestep : α) :
    (graph.nextFrame timestep).Solves graph.nodes (graph.nextMeaning hacyclic timestep) :=
  fun key => Frame.meaning_eq _ _ hacyclic key

section Reading

variable {frame frame' : Frame α} {results results' : Frame.Results α} {slot slot' : Slot}

omit [Scalar α] in
/-- Two inputs that see alike are bound to corresponding nodes, or to none of a type that they take. -/
theorem SlotAlike.cases {expected : InputType} (h : SlotAlike r graph other expected slot slot') {type : ResultType}
    (htype : expected.resultType? = some type) :
    (∃ child child', r child child' ∧ Frame.typedChild? graph.nodes type slot = some child ∧
      Frame.typedChild? other.nodes type slot' = some child') ∨
    (Frame.typedChild? graph.nodes type slot = none ∧ Frame.typedChild? other.nodes type slot' = none) := by
  have hchild := h.child
  simp only [childAt?, htype, Option.bind_some] at hchild
  generalize Frame.typedChild? graph.nodes type slot = a, Frame.typedChild? other.nodes type slot' = b at hchild
  cases hchild with
  | some hr => exact .inl ⟨_, _, hr, rfl, rfl⟩
  | none => exact .inr ⟨rfl, rfl⟩

theorem SlotAlike.poseInput (h : SlotAlike r graph other .pose slot slot')
    (hsolves : frame.Solves graph.nodes results) (hsolves' : frame'.Solves other.nodes results')
    (hresults : ∀ child child', slot = .node child → r child child' → results child = results' child') :
    Frame.poseInput results slot = Frame.poseInput results' slot' := by
  rcases h.cases (show InputType.resultType? .pose = some .pose from rfl) with ⟨child, child', hr, ha, hb⟩ | ⟨ha, hb⟩
  · obtain ⟨rfl, -⟩ := Frame.typedChild?_eq_some_iff.1 ha
    obtain ⟨rfl, -⟩ := Frame.typedChild?_eq_some_iff.1 hb
    rw [Frame.poseInput, Frame.poseInput, hresults child child' rfl hr]
  · rw [hsolves.poseInput_of_none ha, hsolves'.poseInput_of_none hb]

theorem SlotAlike.boolInput (h : SlotAlike r graph other .bool slot slot')
    (hsolves : frame.Solves graph.nodes results) (hsolves' : frame'.Solves other.nodes results')
    (htable : frame.table = graph.table) (htable' : frame'.table = other.table)
    (hresults : ∀ child child', slot = .node child → r child child' → results child = results' child')
    (default : Bool) : frame.boolInput results slot default = frame'.boolInput results' slot' default := by
  rcases h.cases (show InputType.resultType? .bool = some .bool from rfl) with ⟨child, child', hr, ha, hb⟩ | ⟨ha, hb⟩
  · obtain ⟨rfl, -⟩ := Frame.typedChild?_eq_some_iff.1 ha
    obtain ⟨rfl, -⟩ := Frame.typedChild?_eq_some_iff.1 hb
    rw [Frame.boolInput, Frame.boolInput, hresults child child' rfl hr]
  · rw [hsolves.boolInput_of_none ha, hsolves'.boolInput_of_none hb, bind_bound? htable asBool?_eq_none,
      bind_bound? htable' asBool?_eq_none, h.value]

theorem SlotAlike.floatInput (h : SlotAlike r graph other .float slot slot')
    (hsolves : frame.Solves graph.nodes results) (hsolves' : frame'.Solves other.nodes results')
    (htable : frame.table = graph.table) (htable' : frame'.table = other.table)
    (hresults : ∀ child child', slot = .node child → r child child' → results child = results' child')
    (default : α) : frame.floatInput results slot default = frame'.floatInput results' slot' default := by
  rcases h.cases (show InputType.resultType? .float = some .float from rfl) with ⟨child, child', hr, ha, hb⟩ | ⟨ha, hb⟩
  · obtain ⟨rfl, -⟩ := Frame.typedChild?_eq_some_iff.1 ha
    obtain ⟨rfl, -⟩ := Frame.typedChild?_eq_some_iff.1 hb
    rw [Frame.floatInput, Frame.floatInput, hresults child child' rfl hr]
  · rw [hsolves.floatInput_of_none ha, hsolves'.floatInput_of_none hb, bind_bound? htable asFloat?_eq_none,
      bind_bound? htable' asFloat?_eq_none, h.value]

end Reading

/-- Nodes that are alike read alike if the nodes that they see have the same results. -/
theorem NodeAlike.readsAlike {frame frame' : Frame α} {results results' : Frame.Results α} {node node' : Node α}
    (h : NodeAlike r graph other node node') (hsolves : frame.Solves graph.nodes results)
    (hsolves' : frame'.Solves other.nodes results') (htable : frame.table = graph.table)
    (htable' : frame'.table = other.table)
    (hresults : ∀ child child', Slot.node child ∈ node.inputs → r child child' → results child = results' child') :
    frame.ReadsAlike frame' results results' node node' where
  pose index hindex :=
    (h.inputs index _ hindex).poseInput hsolves hsolves' fun child child' hslot =>
      hresults child child' (Frame.mem_inputs_of_input hslot)
  bool index default hindex :=
    (h.inputs index _ hindex).boolInput hsolves hsolves' htable htable' (fun child child' hslot =>
      hresults child child' (Frame.mem_inputs_of_input hslot)) default
  float index default hindex :=
    (h.inputs index _ hindex).floatInput hsolves hsolves' htable htable' (fun child child' hslot =>
      hresults child child' (Frame.mem_inputs_of_input hslot)) default
  clip index hindex := by
    rw [Frame.clipInput_eq, Frame.clipInput_eq, bind_bound? htable asClip?_eq_none, bind_bound? htable' asClip?_eq_none,
      (h.inputs index _ hindex).value]

/-! ## Frames -/

omit [Scalar α] in
theorem Alike.alike_nextFrame (h : Alike r graph other) (timestep : α) :
    (graph.nextFrame timestep).Alike (other.nextFrame timestep) :=
  ⟨other.table, other.frame + 1, by simp only [Graph.nextFrame, h.skeleton, h.settings]⟩

/-- Corresponding nodes mean the same. -/
theorem Alike.nextMeaning (h : Alike r graph other) (hacyclic : graph.nodes.Acyclic)
    (hacyclic' : other.nodes.Acyclic) (timestep : α) {key key' : NodeKey} (hr : r key key') :
    graph.nextMeaning hacyclic timestep key = other.nextMeaning hacyclic' timestep key' := by
  have hsolves := graph.solves_nextMeaning hacyclic timestep
  have hsolves' := other.solves_nextMeaning hacyclic' timestep
  -- along the bindings of the first graph
  induction key using hacyclic.wellFounded.induction generalizing key' with
  | _ key ih =>
    obtain ⟨node, node', hnode, hnode', halike⟩ := h.nodes key key' hr
    have hnode : graph.nodes.get? key = some node := hnode
    have hnode' : other.nodes.get? key' = some node' := hnode'
    have hreads := halike.readsAlike hsolves hsolves' rfl rfl fun child child' hchild hr =>
      ih child ⟨node, hnode, hchild⟩ hr
    rw [hsolves key, hsolves' key', hnode, hnode', Option.map_some, Option.map_some,
      hreads.operation (h.alike_nextFrame timestep) halike.kind halike.state]

theorem Alike.readsAlike (h : Alike r graph other) (hacyclic : graph.nodes.Acyclic)
    (hacyclic' : other.nodes.Acyclic) (timestep : α) {node node' : Node α}
    (halike : NodeAlike r graph other node node') :
    (graph.nextFrame timestep).ReadsAlike (other.nextFrame timestep) (graph.nextMeaning hacyclic timestep)
      (other.nextMeaning hacyclic' timestep) node node' :=
  halike.readsAlike (graph.solves_nextMeaning hacyclic timestep) (other.solves_nextMeaning hacyclic' timestep) rfl rfl
    fun _ _ _ hr => h.nextMeaning hacyclic hacyclic' timestep hr

theorem Alike.needs (h : Alike r graph other) (hacyclic : graph.nodes.Acyclic) (hacyclic' : other.nodes.Acyclic)
    (timestep : α) {key key' child : NodeKey} (hr : r key key')
    (hneeds : (graph.nextFrame timestep).Needs graph.nodes (graph.nextMeaning hacyclic timestep) key child) :
    ∃ child', r child child' ∧
      (other.nextFrame timestep).Needs other.nodes (other.nextMeaning hacyclic' timestep) key' child' := by
  obtain ⟨node, hnode, read, hread, hchild⟩ := hneeds
  obtain ⟨old, node', hold, hnode', halike⟩ := h.nodes key key' hr
  obtain rfl := Option.some.inj (hnode.symm.trans hold)
  obtain ⟨expected, hexpected, htype⟩ := Frame.exists_input_of_mem_reads hread
  rcases (halike.inputs read.2 expected hexpected).cases htype with ⟨seen, child', hr, hseen, hchild'⟩ | ⟨hnone, -⟩
  · obtain rfl := Option.some.inj (hseen.symm.trans hchild)
    rw [(h.readsAlike hacyclic hacyclic' timestep halike).reads halike.kind] at hread
    exact ⟨child', hr, node', hnode', read, hread, hchild'⟩
  · rw [hchild] at hnone
    cases hnone

/-- What the output demands corresponds to what the output of the other graph demands. -/
theorem Alike.mem_nextDemand (h : Alike r graph other) (hacyclic : graph.nodes.Acyclic)
    (hacyclic' : other.nodes.Acyclic) (timestep : α) {key key' : NodeKey} (hr : r key key')
    (hkey : key ∈ graph.nextDemand hacyclic timestep) : key' ∈ other.nextDemand hacyclic' timestep := by
  obtain ⟨output, houtput, hdemand⟩ := hkey
  have hrel := h.output
  rw [houtput] at hrel
  cases houtput' : other.output with
  | none =>
    rw [houtput'] at hrel
    cases hrel
  | some output' =>
    rw [houtput'] at hrel
    have hr₀ : r output output' := by cases hrel with | some hr => exact hr
    have hreach : ∃ last, r key last ∧ last ∈ (other.nextFrame timestep).Demand other.nodes
        (other.nextMeaning hacyclic' timestep) output' := by
      clear hr
      induction hdemand with
      | refl => exact ⟨output', hr₀, .refl⟩
      | tail _ hneeds ih =>
        obtain ⟨mid, hmid, hdemand⟩ := ih
        obtain ⟨child', hr, hneeds⟩ := h.needs hacyclic hacyclic' timestep hmid hneeds
        exact ⟨child', hr, hdemand.tail hneeds⟩
    obtain ⟨last, hlast, hdemand⟩ := hreach
    rw [h.unique.2 hr hlast]
    exact ⟨output', houtput', hdemand⟩

/-- A frame leaves corresponding nodes both as they are, or computes both to the same state. -/
theorem Alike.node?_evaluate (h : Alike r graph other) (hgraph : graph.WellFormed cleared)
    (hother : other.WellFormed cleared') (timestep : α) {key key' : NodeKey} (hr : r key key') {node node' : Node α}
    (hnode : graph.node? key = some node) (hnode' : other.node? key' = some node') :
    ((graph.evaluate timestep).2.node? key = some node ∧ (other.evaluate timestep).2.node? key' = some node') ∨
    ∃ state, (graph.evaluate timestep).2.node? key = some (node.computed (graph.frame + 1) state) ∧
      (other.evaluate timestep).2.node? key' = some (node'.computed (other.frame + 1) state) := by
  have hprogress := hgraph.progress_evaluate timestep
  have hprogress' := hother.progress_evaluate timestep
  obtain ⟨old, old', hold, hold', halike⟩ := h.nodes key key' hr
  obtain rfl := Option.some.inj (hnode.symm.trans hold)
  obtain rfl := Option.some.inj (hnode'.symm.trans hold')
  have hmem : key ∈ graph.nextDemand hgraph.acyclic timestep ↔ key' ∈ other.nextDemand hother.acyclic timestep :=
    ⟨h.mem_nextDemand hgraph.acyclic hother.acyclic timestep hr,
      h.symm.mem_nextDemand hother.acyclic hgraph.acyclic timestep hr⟩
  have hnode : graph.nodes.get? key = some node := hnode
  have hnode' : other.nodes.get? key' = some node' := hnode'
  by_cases hkey : key ∈ graph.nextDemand hgraph.acyclic timestep
  · have hreads := h.readsAlike hgraph.acyclic hother.acyclic timestep halike
    have hstate := hreads.stateAfter (h.alike_nextFrame timestep) halike.kind halike.state
    have hafter := hprogress.finished key hkey
    have hafter' := hprogress'.finished key' (hmem.1 hkey)
    rw [hnode] at hafter
    rw [hnode'] at hafter'
    refine .inr ⟨_, hafter, hafter'.trans ?_⟩
    rw [hstate]
    rfl
  · refine .inl ⟨?_, ?_⟩
    · exact (hprogress.untouched key hkey).trans hnode
    · exact (hprogress'.untouched key' (mt hmem.2 hkey)).trans hnode'

/-- A frame computes the same pose. -/
theorem Alike.evaluate_fst (h : Alike r graph other) (hgraph : graph.WellFormed cleared)
    (hother : other.WellFormed cleared') (timestep : α) :
    (graph.evaluate timestep).1 = (other.evaluate timestep).1 := by
  have houtput := h.output
  rw [hgraph.evaluate_fst, hother.evaluate_fst, outputPose, outputPose, hgraph.output_evaluate,
    hother.output_evaluate]
  generalize graph.output = a, other.output = b at houtput
  cases houtput with
  | none => rfl
  | @some key key' hr =>
    obtain ⟨node, node', hnode, hnode', halike⟩ := h.nodes key key' hr
    rw [Option.bind_some, Option.bind_some]
    rcases h.node?_evaluate hgraph hother timestep hr hnode hnode' with ⟨hafter, hafter'⟩ | ⟨state, hafter, hafter'⟩
    · rw [hafter, hafter', Option.map_some, Option.map_some, Node.pose, Node.pose, halike.state]
    · rw [hafter, hafter']
      rfl

end Graph
end Armature
