import Armature.Proofs.Described
import Armature.Proofs.WellFormed

/-!
# Binding the inputs that are described

The inputs of a graph that is built from a description are bound one by one. Each step either goes on with what is
described so far (`Description.Builds`) or fails with an error that names a defect of the description
(`Description.Builds.outcome_bindAll`). A binding that would close a cycle is refused when the last edge of the cycle is
met: the way back that is there by then is one of the description.
-/

namespace Armature

variable {α : Type}

/-! ## Outcomes -/

/-- What a computation that may fail comes to: a value that is good, or an error that is justified. -/
def Outcome {β : Type} (good : β → Prop) (justified : Error → Prop) : Except Error β → Prop
  | .ok b => good b
  | .error e => justified e

namespace Outcome

variable {β γ : Type} {justified : Error → Prop} {m : Except Error β}

theorem mono {good good' : β → Prop} (h : Outcome good justified m) (hgood : ∀ b, good b → good' b) :
    Outcome good' justified m := by
  cases m with
  | ok b => exact hgood b h
  | error e => exact h

theorem bind {good : β → Prop} {good' : γ → Prop} {f : β → Except Error γ} (h : Outcome good justified m)
    (hf : ∀ b, good b → Outcome good' justified (f b)) : Outcome good' justified (m >>= f) := by
  cases m with
  | ok b => exact hf b h
  | error e => exact h

/-- What each step of a pass over a list keeps, the whole pass keeps. -/
theorem foldlM {xs : List γ} {f : β → γ → Except Error β} (good : Nat → β → Prop) {b : β} (hstart : good 0 b)
    (hstep : ∀ i x b, xs[i]? = some x → good i b → Outcome (good (i + 1)) justified (f b x)) :
    Outcome (good xs.length) justified (xs.foldlM f b) := by
  induction xs generalizing good b with
  | nil => exact hstart
  | cons x xs ih =>
    rw [List.foldlM_cons]
    refine (hstep 0 x b rfl hstart).bind fun next hnext => ?_
    exact ih (fun i => good (i + 1)) hnext fun i y b hy hb => hstep (i + 1) y b hy hb

end Outcome

/-- A table that keeps all variables and names of another finds the same under each name. -/
theorem VariableTable.Exact.find?_eq_of_kept {table next : VariableTable α} (h : table.Exact)
    (hget : ∀ key v, table.get? key = some v → next.get? key = some v)
    (hkey : ∀ name, next.key? name = table.key? name) (name : String) : next.find? name = table.find? name := by
  unfold find?
  rw [hkey]
  cases hfound : table.key? name with
  | none => rfl
  | some key =>
    obtain ⟨v, hv, -⟩ := h.get?_of_key? hfound
    simp [hv, hget key v hv]

namespace Description

/-! ## Inputs in order -/

section Order

variable {d : Description α} {place index : Nat}

/-- What is described of the inputs that come before an index of the node at a place. -/
def before (d : Description α) (place index : Nat) (site : Nat × Nat) : Option (InputDescription α) :=
  if site.1 < place ∨ (site.1 = place ∧ site.2 < index) then d.inputAt site else none

theorem before_self (d : Description α) (place index : Nat) : d.before place index (place, index) = none := by
  simp [before]

theorem inputAt_of_before {site : Nat × Nat} {input : InputDescription α}
    (h : d.before place index site = some input) : d.inputAt site = some input := by
  unfold before at h
  split at h
  · exact h
  · cases h

theorem before_zero (d : Description α) : d.before 0 0 = fun _ => none := by
  funext site
  simp [before]

theorem before_succ (d : Description α) (place index : Nat) :
    d.before place (index + 1) = Function.update (d.before place index) (place, index) (d.inputAt (place, index)) := by
  funext ⟨i, j⟩
  rw [Function.update_apply]
  by_cases hsite : (i, j) = (place, index)
  · obtain ⟨rfl, rfl⟩ := Prod.mk.inj hsite
    simp [before]
  · have hiff : (i = place ∧ j < index + 1) ↔ (i = place ∧ j < index) := by
      rw [Prod.mk.injEq] at hsite
      omega
    rw [if_neg hsite]
    simp only [before, hiff]

/-- Beyond the inputs of a node come those of the next. -/
theorem before_place_succ {node : NodeDescription α} (hnode : d.nodes[place]? = some node) :
    d.before place node.inputs.length = d.before (place + 1) 0 := by
  funext ⟨i, j⟩
  unfold before
  by_cases hi : i = place
  · subst hi
    by_cases hj : j < node.inputs.length
    · simp [hj]
    · have hnone : d.inputAt (i, j) = none := by
        simp [inputAt, hnode, List.getElem?_eq_none (Nat.le_of_not_lt hj)]
      simp [hnone]
  · have hiff : i < place + 1 ↔ i < place := by omega
    simp [hi, hiff]

theorem before_length (d : Description α) : d.before d.nodes.length 0 = d.inputAt := by
  funext ⟨i, j⟩
  unfold before
  split
  · rfl
  · next hbeyond =>
    have hi : d.nodes.length ≤ i := by
      simpa using hbeyond
    simp [inputAt, List.getElem?_eq_none hi]

end Order

/-! ## Inputs of a graph that is being built -/

section Slots

variable {graph : Graph α} {keys : List NodeKey} {place index : Nat} {key : NodeKey} {node : Node α}

theorem eq_of_getElem?_eq_some {place other : Nat} (hnodup : keys.Nodup) (hplace : keys[place]? = some key)
    (hother : keys[other]? = some key) : place = other :=
  (List.getElem?_inj (List.getElem?_eq_some_iff.1 hplace).1 hnodup).1 (hplace.trans hother.symm)

theorem slotAt_of_node? (hkey : keys[place]? = some key) (hnode : graph.node? key = some node) (index : Nat) :
    graph.slotAt keys (place, index) = node.input index := by
  simp [Graph.slotAt, hkey, hnode]

/-- Binding an input changes that input alone. -/
theorem slotAt_bindSlot (hnodup : keys.Nodup) (hkey : keys[place]? = some key) (hnode : graph.node? key = some node)
    (hindex : index < node.inputs.length) (slot : Slot) (site : Nat × Nat) :
    (graph.bindSlot key index slot).slotAt keys site =
      if site = (place, index) then slot else graph.slotAt keys site := by
  obtain ⟨i, j⟩ := site
  unfold Graph.slotAt
  cases hother : keys[i]? with
  | none =>
    have hne : (i, j) ≠ (place, index) := by
      rintro heq
      obtain ⟨rfl, -⟩ := Prod.mk.inj heq
      cases hother.symm.trans hkey
    simp [hne]
  | some other =>
    simp only [Option.bind_some, Graph.node?_bindSlot]
    by_cases hsame : other = key
    · subst hsame
      obtain rfl := eq_of_getElem?_eq_some hnodup hother hkey
      simp [hnode, Node.input_bind _ _ _ _ hindex]
    · have hne : i ≠ place := by
        rintro rfl
        exact hsame (Option.some.inj (hother.symm.trans hkey))
      simp [hsame, hne]

theorem SlotBuilt.mono {table table' : VariableTable α} {input : Option (InputDescription α)} {slot : Slot}
    (h : SlotBuilt keys table input slot) (hget : ∀ key v, table.get? key = some v → table'.get? key = some v)
    (hkey : ∀ name, table'.key? name = table.key? name) : SlotBuilt keys table' input slot := by
  cases h with
  | unbound => exact .unbound
  | toNode h => exact .toNode h
  | toNamed h => exact .toNamed ((hkey _).trans h)
  | toBool h => exact .toBool (hget _ _ h)
  | toFloat h => exact .toFloat (hget _ _ h)

theorem SlotBuilt.eq_unbound {table : VariableTable α} {slot : Slot} (h : SlotBuilt keys table none slot) :
    slot = .unbound := by
  cases h
  rfl

theorem SlotBuilt.exists_of_node {table : VariableTable α} {child : Nat} {slot : Slot}
    (h : SlotBuilt keys table (some (.node child)) slot) : ∃ key, keys[child]? = some key ∧ slot = .node key := by
  cases h with
  | toNode h => exact ⟨_, h, rfl⟩

theorem SlotBuilt.exists_of_variable {table : VariableTable α} {name : String} {slot : Slot}
    (h : SlotBuilt keys table (some (.variable name)) slot) :
    ∃ variableKey, table.key? name = some variableKey ∧ slot = .variable variableKey := by
  cases h with
  | toNamed h => exact ⟨_, h, rfl⟩

/-- The variable that a slot is bound to is there. -/
theorem SlotBuilt.exists_get? {table : VariableTable α} (hexact : table.Exact) {input : Option (InputDescription α)}
    {variableKey : VariableKey} (h : SlotBuilt keys table input (.variable variableKey)) :
    ∃ v, table.get? variableKey = some v := by
  cases h with
  | toNamed h =>
    obtain ⟨v, hv, -⟩ := hexact.get?_of_key? h
    exact ⟨v, hv⟩
  | toBool h => exact ⟨_, h⟩
  | toFloat h => exact ⟨_, h⟩

end Slots

section Builds

variable [Scalar α] {d : Description α} {clips : ClipLibrary α} {skeleton : Asset (Skeleton α)}
  {settings : Settings α} {keys : List NodeKey} {inputs : Nat × Nat → Option (InputDescription α)}
  {output : Option NodeKey} {graph : Graph α}

theorem Builds.wellFormed (h : d.Builds clips skeleton settings keys inputs output graph) :
    graph.WellFormed False :=
  h.reached.wellFormed fun hne => hne rfl

theorem Builds.place_unique (h : d.Builds clips skeleton settings keys inputs output graph) {place other : Nat}
    {key : NodeKey} (hplace : keys[place]? = some key) (hother : keys[other]? = some key) : place = other :=
  eq_of_getElem?_eq_some h.nodup hplace hother

/-- The bindings between nodes are those that are described. -/
theorem Builds.binds_iff (h : d.Builds clips skeleton settings keys inputs output graph) {place : Nat} {key : NodeKey}
    (hkey : keys[place]? = some key) (other : NodeKey) :
    graph.nodes.Binds key other ↔
      ∃ child index, keys[child]? = some other ∧ inputs (place, index) = some (.node child) := by
  constructor
  · rintro ⟨node, hnode, hmem⟩
    obtain ⟨index, hindex⟩ := List.mem_iff_getElem?.1 hmem
    have hslot := h.slot (place, index)
    rw [slotAt_of_node? hkey hnode, Node.input, hindex, Option.getD_some] at hslot
    generalize hinput : inputs (place, index) = input at hslot
    cases hslot with
    | toNode hchild => exact ⟨_, index, hchild, hinput⟩
  · rintro ⟨child, index, hchild, hinput⟩
    have hslot := h.slot (place, index)
    obtain ⟨node, hnode⟩ : ∃ node, graph.node? key = some node :=
      Nodes.get?_of_contains ((h.contains key).2 (List.mem_of_getElem? hkey))
    rw [hinput, slotAt_of_node? hkey hnode] at hslot
    obtain ⟨bound, hbound, hslot⟩ := hslot.exists_of_node
    obtain rfl := Option.some.inj (hchild.symm.trans hbound)
    exact ⟨node, hnode, Frame.mem_inputs_of_input hslot⟩

/-- Along the bindings from a node one comes to the nodes that it uses. -/
theorem Builds.exists_uses (h : d.Builds clips skeleton settings keys inputs output graph)
    (hinputs : ∀ site input, inputs site = some input → d.inputAt site = some input) {place : Nat}
    {key other : NodeKey} (hkey : keys[place]? = some key)
    (hreach : Relation.ReflTransGen graph.nodes.Binds key other) :
    ∃ child : Nat, keys[child]? = some other ∧ Relation.ReflTransGen d.Uses place child := by
  induction hreach with
  | refl => exact ⟨place, hkey, .refl⟩
  | tail _ hbinds ih =>
    obtain ⟨parent, hparent, huses⟩ := ih
    obtain ⟨child, index, hchild, hinput⟩ := (h.binds_iff hparent _).1 hbinds
    exact ⟨child, hchild, huses.tail (uses_iff.2 ⟨index, hinputs _ _ hinput⟩)⟩

/-- What an unnamed variable drives when one more input is bound: what it drove before or, if it is new, this input. -/
theorem exists_drives_iff {slots : Nat × Nat → Slot} {site : Nat × Nat} {slot : Slot} {variableKey : VariableKey}
    (hunbound : slots site = .unbound)
    (h : ((∃ driven, ∀ other, slots other = .variable variableKey ↔ other = driven) ∧ slot ≠ .variable variableKey) ∨
      ((∀ other, slots other ≠ .variable variableKey) ∧ slot = .variable variableKey)) :
    ∃ driven, ∀ other, (if other = site then slot else slots other) = .variable variableKey ↔ other = driven := by
  rcases h with ⟨⟨driven, hdriven⟩, hslot⟩ | ⟨hnone, hslot⟩
  · refine ⟨driven, fun other => ?_⟩
    by_cases hother : other = site
    · have hne : site ≠ driven := by
        intro heq
        cases hunbound.symm.trans ((hdriven site).2 heq)
      simp [hother, hslot, hne]
    · rw [if_neg hother]
      exact hdriven other
  · refine ⟨site, fun other => ?_⟩
    by_cases hother : other = site
    · simp [hother, hslot]
    · rw [if_neg hother]
      exact iff_of_false (hnone other) hother

/-- One more input is bound, to something that is there or to a variable that is added for it. -/
theorem Builds.bind (h : d.Builds clips skeleton settings keys inputs output graph) {place index : Nat}
    {key : NodeKey} {described : NodeDescription α} {input : InputDescription α} {slot : Slot}
    {table : VariableTable α} (hkey : keys[place]? = some key) (hdescribed : d.nodes[place]? = some described)
    (hindex : index < described.kind.arity) (hfree : inputs (place, index) = none)
    (hget : ∀ variableKey v, graph.table.get? variableKey = some v → table.get? variableKey = some v)
    (hname : ∀ name, table.key? name = graph.table.key? name) (hexact : table.Exact)
    (hunnamed : ∀ variableKey v, table.get? variableKey = some v → v.name = none →
      (graph.table.get? variableKey = some v ∧ slot ≠ .variable variableKey) ∨
        (graph.table.get? variableKey = none ∧ slot = .variable variableKey))
    (hslot : SlotBuilt keys table (some input) slot)
    (hreached : (Graph.bindSlot { graph with table } key index slot).ReachedBy (· ≠ .clearVariables)) :
    d.Builds clips skeleton settings keys (Function.update inputs (place, index) (some input)) output
      (Graph.bindSlot { graph with table } key index slot) := by
  obtain ⟨slots, hlength, hnode⟩ := h.node place key described hkey hdescribed
  have hsite : ∀ site, (Graph.bindSlot { graph with table } key index slot).slotAt keys site =
      if site = (place, index) then slot else graph.slotAt keys site :=
    slotAt_bindSlot h.nodup hkey hnode (by simpa [hlength] using hindex) slot
  have hunbound : graph.slotAt keys (place, index) = .unbound := (hfree ▸ h.slot (place, index)).eq_unbound
  have hmodify : ∀ other, (Graph.bindSlot { graph with table } key index slot).node? other =
      if other = key then (graph.node? other).map (·.bind index slot) else graph.node? other :=
    Graph.node?_bindSlot _ _ _ _
  refine ⟨hreached, h.skeleton_eq, h.settings_eq, h.frame_eq, h.output_eq, h.length, h.nodup,
    ?_, ?_, ?_, hexact, ?_, ?_⟩
  · intro other
    rw [← h.contains other]
    have hother := hmodify other
    unfold Graph.node? at hother
    rw [Arena.contains, Arena.contains, hother]
    split <;> simp
  · intro otherPlace other otherDescribed hother hotherDescribed
    obtain ⟨slots, hlength, hnode⟩ := h.node otherPlace other otherDescribed hother hotherDescribed
    rw [hmodify, hnode]
    by_cases hsame : other = key
    · rw [if_pos hsame]
      exact ⟨slots.set index slot, by simpa using hlength, rfl⟩
    · rw [if_neg hsame]
      exact ⟨slots, hlength, rfl⟩
  · intro site
    rw [hsite, Function.update_apply]
    split
    · exact hslot
    · exact (h.slot site).mono hget hname
  · intro name v
    rw [← h.named name v]
    have hfind : table.find? name = graph.table.find? name := h.index.find?_eq_of_kept hget hname name
    exact hfind ▸ Iff.rfl
  · intro variableKey v hv hnone
    simp only [hsite]
    apply exists_drives_iff hunbound
    rcases hunnamed variableKey v hv hnone with ⟨hold, hne⟩ | ⟨hnew, heq⟩
    · exact .inl ⟨h.unnamed variableKey v hold hnone, hne⟩
    · refine .inr ⟨fun other hdrives => ?_, heq⟩
      obtain ⟨w, hw⟩ := (hdrives ▸ h.slot other).exists_get? h.index
      cases hnew.symm.trans hw

end Builds

/-! ## Binding the inputs

Binding one more input as it is described goes on with what is described, or fails for a defect. -/

section Binding

variable [Scalar α] {d : Description α} {clips : ClipLibrary α} {skeleton : Asset (Skeleton α)}
  {settings : Settings α} {keys : List NodeKey} {inputs : Nat × Nat → Option (InputDescription α)}
  {output : Option NodeKey} {graph : Graph α} {place index : Nat} {key : NodeKey}
  {described : NodeDescription α}

theorem Builds.checkInput (h : d.Builds clips skeleton settings keys inputs output graph)
    (hkey : keys[place]? = some key) (hdescribed : d.nodes[place]? = some described)
    (hindex : index < described.kind.arity) : graph.checkInput key index = .ok () := by
  obtain ⟨slots, hlength, hnode⟩ := h.node place key described hkey hdescribed
  exact Graph.checkInput_of_lt hnode (by simpa [hlength] using hindex)

/-- One more input is bound, to something that is there. -/
theorem Builds.bindSlot {input : InputDescription α} {slot : Slot}
    (h : d.Builds clips skeleton settings keys inputs output graph) (hkey : keys[place]? = some key)
    (hdescribed : d.nodes[place]? = some described) (hindex : index < described.kind.arity)
    (hfree : inputs (place, index) = none) (hslot : SlotBuilt keys graph.table (some input) slot)
    (hnamed : ∀ variableKey v, graph.table.get? variableKey = some v → v.name = none → slot ≠ .variable variableKey)
    (hreached : (graph.bindSlot key index slot).ReachedBy (· ≠ .clearVariables)) :
    d.Builds clips skeleton settings keys (Function.update inputs (place, index) (some input)) output
      (graph.bindSlot key index slot) :=
  h.bind hkey hdescribed hindex hfree (fun _ _ => id) (fun _ => rfl) h.index
    (fun variableKey v hv hnone => .inl ⟨hv, hnamed variableKey v hv hnone⟩) hslot hreached

theorem Builds.outcome_bindNode {child : Nat}
    (h : d.Builds clips skeleton settings keys inputs output graph) (hkey : keys[place]? = some key)
    (hdescribed : d.nodes[place]? = some described) (hindex : index < described.kind.arity)
    (hfree : inputs (place, index) = none)
    (hinputs : ∀ site input, inputs site = some input → d.inputAt site = some input)
    (hinput : d.inputAt (place, index) = some (.node child)) :
    Outcome
      (d.Builds clips skeleton settings keys (Function.update inputs (place, index) (some (.node child))) output)
      (d.Defect clips) (bindInput keys place key graph (some (.node child), index)) := by
  simp only [bindInput]
  cases hchild : keys[child]? with
  | none => exact .missingInput hinput (h.length ▸ List.getElem?_eq_none_iff.1 hchild)
  | some childKey =>
    have hbind := Graph.bindNode_eq_ite (h.checkInput hkey hdescribed hindex)
      ((h.contains _).2 (List.mem_of_getElem? hchild))
    by_cases hback : graph.dependsOn childKey key
    · -- the way back in the graph is one in the description, and this input closes it to a cycle
      rw [if_pos hback] at hbind
      simp only [hbind]
      have hreach := (Graph.dependsOn_iff h.wellFormed.closed _ _).1 hback
      obtain ⟨other, hother, huses⟩ := h.exists_uses hinputs hchild hreach
      obtain rfl := h.place_unique hother hkey
      exact .cycle (.head' (uses_iff.2 ⟨index, hinput⟩) huses)
    · rw [if_neg hback] at hbind
      simp only [hbind]
      have hreached := h.reached.of_eq_ok (.bindNode key index childKey) (by simp) rfl hbind
      exact h.bindSlot hkey hdescribed hindex hfree (.toNode hchild) (fun _ _ _ _ heq => by cases heq) hreached

theorem Builds.outcome_bindNamed {name : String}
    (h : d.Builds clips skeleton settings keys inputs output graph)
    (hresolves : ∀ declaration ∈ d.declarations, ∃ value, declaration.value.Describes clips value)
    (hkey : keys[place]? = some key) (hdescribed : d.nodes[place]? = some described)
    (hindex : index < described.kind.arity) (hfree : inputs (place, index) = none)
    (hinput : d.inputAt (place, index) = some (.variable name)) :
    Outcome
      (d.Builds clips skeleton settings keys (Function.update inputs (place, index) (some (.variable name))) output)
      (d.Defect clips) (bindInput keys place key graph (some (.variable name), index)) := by
  simp only [bindInput]
  cases hname : graph.table.key? name with
  | none =>
    have hbind : graph.bindNamed key index name = .error (.unknownVariable name) := by
      simp [Graph.bindNamed, hname]
    rw [hbind]
    refine .unknownVariable hinput fun hmem => ?_
    obtain ⟨declaration, hdeclaration, rfl⟩ := List.mem_map.1 hmem
    obtain ⟨value, hvalue⟩ := hresolves declaration hdeclaration
    have hfind := (h.named _ _).2 ⟨declaration, hdeclaration, rfl, value, hvalue, rfl⟩
    simp [VariableTable.find?, hname] at hfind
  | some variableKey =>
    obtain ⟨v, hv, hvname⟩ := h.index.get?_of_key? hname
    have hbind := Graph.bindNamed_of_key? (h.checkInput hkey hdescribed hindex) hname
      (VariableTable.contains_of_get? hv)
    have hreached := h.reached.of_eq_ok (.bindNamed key index name) (by simp) rfl hbind
    rw [hbind]
    refine h.bindSlot hkey hdescribed hindex hfree (.toNamed hname) ?_ hreached
    rintro otherKey w hw hnone heq
    obtain rfl := Slot.variable.inj heq
    obtain rfl := Option.some.inj (hv.symm.trans hw)
    cases hnone.symm.trans hvname

theorem Builds.outcome_bindValue {value : Value α} {input : InputDescription α}
    (h : d.Builds clips skeleton settings keys inputs output graph) (hkey : keys[place]? = some key)
    (hdescribed : d.nodes[place]? = some described) (hindex : index < described.kind.arity)
    (hfree : inputs (place, index) = none)
    (hslot : ∀ (table : VariableTable α) (variableKey : VariableKey), table.get? variableKey = some ⟨none, value⟩ →
      SlotBuilt keys table (some input) (.variable variableKey)) :
    Outcome (d.Builds clips skeleton settings keys (Function.update inputs (place, index) (some input)) output)
      (d.Defect clips) ((graph.bindValue key index value).map (·.2)) := by
  have hbind := Graph.bindValue_of_checkInput value (h.checkInput hkey hdescribed hindex)
  have hreached := h.reached.of_eq_ok (.bindValue key index value) (by simp) rfl (congrArg (Except.map (·.2)) hbind)
  rw [hbind]
  have hinsert := graph.table.get?_insert ⟨none, value⟩
  have hold : ∀ {variableKey v}, graph.table.get? variableKey = some v → variableKey ≠ graph.table.nextKey := by
    rintro variableKey v hv rfl
    simp at hv
  refine h.bind hkey hdescribed hindex hfree ?_ ?_ ?_ ?_ (hslot _ _ (by simp [hinsert])) hreached
  · intro variableKey v hv
    rw [hinsert, if_neg (hold hv), hv]
  · intro name
    simp [VariableTable.key?_insert]
  · exact h.index.insert fun name heq => by cases heq
  · intro variableKey v hv hnone
    rw [hinsert] at hv
    by_cases hnew : variableKey = graph.table.nextKey
    · exact .inr (by simp [hnew])
    · rw [if_neg hnew] at hv
      exact .inl ⟨hv, fun heq => hnew (Slot.variable.inj heq).symm⟩

theorem Builds.outcome_bindInput {input : Option (InputDescription α)}
    (h : d.Builds clips skeleton settings keys (d.before place index) output graph)
    (hresolves : ∀ declaration ∈ d.declarations, ∃ value, declaration.value.Describes clips value)
    (hkey : keys[place]? = some key) (hdescribed : d.nodes[place]? = some described)
    (hindex : index < described.kind.arity) (hinput : described.inputs[index]? = some input) :
    Outcome (d.Builds clips skeleton settings keys (d.before place (index + 1)) output) (d.Defect clips)
      (bindInput keys place key graph (input, index)) := by
  have hfree := d.before_self place index
  have hsite : d.inputAt (place, index) = input := by
    simp [inputAt, hdescribed, hinput]
  rw [before_succ, hsite]
  cases input with
  | none =>
    have hsame : Function.update (d.before place index) (place, index) none = d.before place index :=
      (Function.update_eq_iff).2 ⟨hfree.symm, fun _ _ => rfl⟩
    rw [hsame]
    exact h
  | some input =>
    cases input with
    | node child => exact h.outcome_bindNode hkey hdescribed hindex hfree (fun _ _ => inputAt_of_before) hsite
    | «variable» name => exact h.outcome_bindNamed hresolves hkey hdescribed hindex hfree hsite
    | bool b => exact h.outcome_bindValue hkey hdescribed hindex hfree fun _ _ => .toBool
    | float x => exact h.outcome_bindValue hkey hdescribed hindex hfree fun _ _ => .toFloat

/-- The inputs of all nodes before a place are bound, and these nodes have no inputs that their kinds do not have. -/
structure BuildsBefore (d : Description α) (clips : ClipLibrary α) (skeleton : Asset (Skeleton α))
    (settings : Settings α) (keys : List NodeKey) (output : Option NodeKey) (place : Nat) (graph : Graph α) : Prop where
  builds : d.Builds clips skeleton settings keys (d.before place 0) output graph
  arity : ∀ described ∈ d.nodes.take place, described.inputs.length ≤ described.kind.arity

/-- All inputs of the node at a place. -/
theorem BuildsBefore.outcome_bindInputs (h : d.BuildsBefore clips skeleton settings keys output place graph)
    (hresolves : ∀ declaration ∈ d.declarations, ∃ value, declaration.value.Describes clips value)
    (hkey : keys[place]? = some key) (hdescribed : d.nodes[place]? = some described) :
    Outcome (d.BuildsBefore clips skeleton settings keys output (place + 1)) (d.Defect clips)
      (bindInputs keys graph ((described, key), place)) := by
  simp only [bindInputs]
  split
  · next hrange => exact .inputOutOfRange (List.mem_of_getElem? hdescribed) hrange
  · next hrange =>
    have hinputs : Outcome
        (d.Builds clips skeleton settings keys (d.before place described.inputs.zipIdx.length) output)
        (d.Defect clips) (described.inputs.zipIdx.foldlM (bindInput keys place key) graph) := by
      refine Outcome.foldlM
        (fun index => d.Builds clips skeleton settings keys (d.before place index) output) h.builds ?_
      intro index entry next hentry hnext
      obtain ⟨input, i⟩ := entry
      obtain ⟨hinput, rfl⟩ : described.inputs[index]? = some input ∧ index = i := by
        simpa [List.getElem?_zipIdx] using hentry
      have hindex := (List.getElem?_eq_some_iff.1 hinput).1
      exact hnext.outcome_bindInput hresolves hkey hdescribed (by omega) hinput
    rw [List.length_zipIdx, before_place_succ hdescribed] at hinputs
    refine hinputs.mono fun next hnext => ⟨hnext, ?_⟩
    intro other hother
    rw [List.take_add_one, hdescribed] at hother
    rcases List.mem_append.1 hother with hother | hother
    · exact h.arity other hother
    · rw [List.mem_singleton.1 hother]
      omega

/-- All inputs of all nodes. -/
theorem Builds.outcome_bindAll (h : d.Builds clips skeleton settings keys (fun _ => none) output graph)
    (hresolves : ∀ declaration ∈ d.declarations, ∃ value, declaration.value.Describes clips value) :
    Outcome (d.BuildsBefore clips skeleton settings keys output d.nodes.length) (d.Defect clips)
      ((d.nodes.zip keys).zipIdx.foldlM (bindInputs keys) graph) := by
  have hnodes : Outcome (d.BuildsBefore clips skeleton settings keys output (d.nodes.zip keys).zipIdx.length)
      (d.Defect clips) ((d.nodes.zip keys).zipIdx.foldlM (bindInputs keys) graph) := by
    refine Outcome.foldlM (d.BuildsBefore clips skeleton settings keys output) ⟨by rwa [before_zero], by simp⟩ ?_
    intro place entry next hentry hnext
    obtain ⟨⟨described, key⟩, i⟩ := entry
    obtain ⟨⟨hdescribed, hkey⟩, rfl⟩ :
        (d.nodes[place]? = some described ∧ keys[place]? = some key) ∧ place = i := by
      simpa [List.getElem?_zipIdx, List.getElem?_zip_eq_some] using hentry
    exact hnext.outcome_bindInputs hresolves hkey hdescribed
  rwa [List.length_zipIdx, List.length_zip, h.length, Nat.min_self] at hnodes

end Binding

end Description
end Armature
