import Armature.Graph.InPlace
import Armature.Proofs.Command

/-!
# Edits are all or nothing

An edit in place looks before it writes: it comes to what the edit of the same name comes to that returns a new graph
(`Edit.perform?_eq`), and leaves the graph that its command leads to (`Edit.perform_snd`). So an edit that fails leaves
the graph as it was, down to the caches and the keys that come next, and one that succeeds changes what it is addressed
to (`Edit.footprint`) and nothing else (`Edit.all_or_nothing`).
-/

namespace Armature

variable {α β γ : Type}

/-- Writing a new entry over an old one is changing the old one to it. -/
theorem Arena.modify_const {kind : KeyKind} {arena : Arena kind β} {key : Key kind} {entry : β}
    (h : arena.get? key = some entry) (f : β → β) :
    (arena.modify key fun _ => f entry) = arena.modify key f := by
  have hentries : (arena.entries.modify key.id fun _ => f entry) = arena.entries.modify key.id f := by
    ext1 id
    have hentry : arena.entries[key.id]? = some entry := h
    grind
  simp only [modify, hentries]

/-- What is checked of an input: that it is there. -/
theorem Graph.exists_of_checkInput {graph : Graph α} {key : NodeKey} {index : Nat}
    (h : graph.checkInput key index = .ok ()) : ∃ node, graph.node? key = some node ∧ index < node.inputs.length := by
  unfold checkInput at h
  cases hnode : graph.node? key with
  | none => simp [hnode] at h
  | some node => exact ⟨node, rfl, by simpa [hnode] using h⟩

/-! ## Running an edit in place -/

/-- The answer of an edit with the graph that is there afterwards: the new graph, or the old one if the edit failed. -/
def Graph.commit (graph : Graph α) : Except Error (β × Graph α) → Except Error β × Graph α
  | .ok (answer, next) => (.ok answer, next)
  | .error cause => (.error cause, graph)

namespace InPlace

variable (graph : Graph α)

theorem run_bind (steps : InPlace α β) (next : β → InPlace α γ) :
    (steps >>= next).run graph =
      match steps.run graph with
      | some (.ok b, graph) => (next b).run graph
      | some (.error cause, graph) => some (.error cause, graph)
      | none => none := by
  unfold run
  simp only [ExceptT.run_bind, StateT.run_bind]
  rcases h : StateT.run (ExceptT.run steps) graph with _ | ⟨_ | _, _⟩ <;> rfl

theorem run_bind_of_ok {graph next : Graph α} {steps : InPlace α β} {b : β} (h : steps.run graph = some (.ok b, next))
    (rest : β → InPlace α γ) : (steps >>= rest).run graph = (rest b).run next := by
  rw [run_bind, h]

theorem run_get_bind (next : Graph α → InPlace α γ) : (get >>= next).run graph = (next graph).run graph := rfl

/-- A look that fails ends the steps, and leaves the graph as it is. -/
theorem run_look_bind (f : Graph α → Except Error β) (next : β → InPlace α γ) :
    (look f >>= next).run graph =
      match f graph with
      | .ok b => (next b).run graph
      | .error cause => some (.error cause, graph) := by
  rw [run_bind, look, run_get_bind]
  cases f graph <;> rfl

theorem run_require_bind (condition : Graph α → Bool) (cause : Error) (next : Unit → InPlace α γ) :
    (require condition cause >>= next).run graph =
      if condition graph then (next ()).run graph else some (.error cause, graph) := by
  rw [require, run_look_bind]
  cases condition graph <;> rfl

theorem run_write (f : Graph α → Option (Graph α)) : (write f).run graph = (f graph).map (.ok (), ·) := by
  rw [write, run_get_bind]
  cases f graph <;> rfl

/-! ### Writes to what is there -/

theorem run_writeNode {graph : Graph α} {key : NodeKey} {node : Node α} (h : graph.node? key = some node)
    (f : Node α → Node α) :
    (writeNode key fun node => some (f node)).run graph =
      some (.ok (), { graph with nodes := graph.nodes.modify key f }) := by
  rw [writeNode, run_write]
  simp [h, Arena.modify_const h]

theorem run_writeSlot {graph : Graph α} {key : NodeKey} {index : Nat} (h : graph.checkInput key index = .ok ())
    (slot : Slot) : (writeSlot key index slot).run graph = some (.ok (), graph.bindSlot key index slot) := by
  obtain ⟨node, hnode, hindex⟩ := Graph.exists_of_checkInput h
  have hmodify := Arena.modify_const hnode (·.bind index slot)
  rw [writeSlot, writeNode, run_write]
  simpa [hnode, hindex, Graph.bindSlot] using hmodify

theorem run_writeVariable {graph : Graph α} {key : VariableKey} {v : Variable α} (h : graph.table.get? key = some v)
    (w : Variable α) :
    (writeVariable key w).run graph =
      some (.ok (), { graph with
        table := { graph.table with entries := graph.table.entries.modify key fun _ => w } }) := by
  rw [writeVariable, run_write]
  simp [h]

/-! ### Edits -/

theorem run_setOutput (output : Option NodeKey) :
    (setOutput output).run graph = some (graph.commit ((graph.setOutput output).map ((), ·))) := by
  cases output with
  | none => rfl
  | some key =>
    rw [setOutput, Graph.setOutput, run_require_bind]
    split <;> rfl

theorem run_bindNode (key : NodeKey) (index : Nat) (child : NodeKey) :
    (bindNode key index child).run graph = some (graph.commit ((graph.bindNode key index child).map ((), ·))) := by
  rw [bindNode, Graph.bindNode, run_require_bind]
  split
  · rw [run_look_bind]
    cases hcheck : graph.checkInput key index with
    | error => rfl
    | ok =>
      simp only [run_require_bind, run_writeSlot hcheck]
      cases graph.dependsOn child key <;> rfl
  · rfl

theorem run_bindVariable (key : NodeKey) (index : Nat) (variableKey : VariableKey) :
    (bindVariable key index variableKey).run graph =
      some (graph.commit ((graph.bindVariable key index variableKey).map ((), ·))) := by
  rw [bindVariable, Graph.bindVariable, run_require_bind]
  split
  · rw [run_look_bind]
    cases hcheck : graph.checkInput key index with
    | error => rfl
    | ok => exact run_writeSlot hcheck _
  · rfl

theorem run_findVariable_bind (name : String) (next : VariableKey → InPlace α γ) :
    (findVariable name >>= next).run graph =
      match graph.table.key? name with
      | some key => (next key).run graph
      | none => some (.error (.unknownVariable name), graph) := by
  rw [findVariable, run_look_bind]
  cases graph.table.key? name <;> rfl

theorem run_bindNamed (key : NodeKey) (index : Nat) (name : String) :
    (bindNamed key index name).run graph = some (graph.commit ((graph.bindNamed key index name).map ((), ·))) := by
  rw [bindNamed, Graph.bindNamed, run_findVariable_bind]
  cases graph.table.key? name with
  | none => rfl
  | some variableKey => exact run_bindVariable graph key index variableKey

theorem run_bindValue (key : NodeKey) (index : Nat) (value : Value α) :
    (bindValue key index value).run graph = some (graph.commit (graph.bindValue key index value)) := by
  rw [bindValue, Graph.bindValue, run_look_bind]
  cases hcheck : graph.checkInput key index with
  | error => rfl
  | ok =>
    have hadd : (addVariable ⟨none, value⟩).run graph =
        some (.ok graph.table.nextKey, (graph.addLocalVariable value).2) := rfl
    -- a new variable takes no input away
    have hchecked : (graph.addLocalVariable value).2.checkInput key index = .ok () := hcheck
    simp only
    rw [run_bind_of_ok hadd, run_bind_of_ok (run_writeSlot hchecked _)]
    rfl

theorem run_clearInput (key : NodeKey) (index : Nat) :
    (clearInput key index).run graph = some (graph.commit ((graph.clearInput key index).map ((), ·))) := by
  rw [clearInput, Graph.clearInput, run_look_bind]
  cases hcheck : graph.checkInput key index with
  | error => rfl
  | ok => exact run_writeSlot hcheck _

theorem run_resetInputs (key : NodeKey) :
    (resetInputs key).run graph = some (graph.commit ((graph.resetInputs key).map ((), ·))) := by
  rw [resetInputs, Graph.resetInputs, run_require_bind]
  split
  · next hlive =>
    obtain ⟨node, hnode⟩ := Option.isSome_iff_exists.1 hlive
    exact run_writeNode hnode _
  · rfl

theorem run_declareVariable (name : String) (value : Value α) :
    (declareVariable name value).run graph = some (graph.commit (graph.declareVariable name value)) := by
  rw [declareVariable, Graph.declareVariable, VariableTable.declare, run_require_bind]
  cases graph.table.index.contains name <;> rfl

theorem run_setVariableKey (key : VariableKey) (value : Value α) :
    (setVariableKey key value).run graph =
      some (graph.commit ((graph.setVariableKey key value).map ((), ·))) := by
  rw [setVariableKey, Graph.setVariableKey, VariableTable.setKey, run_look_bind]
  cases hv : graph.table.get? key with
  | none => rfl
  | some v =>
    simp only
    cases v.assign value with
    | error => rfl
    | ok w => exact run_writeVariable hv w

theorem run_setVariable (name : String) (value : Value α) :
    (setVariable name value).run graph = some (graph.commit ((graph.setVariable name value).map ((), ·))) := by
  rw [setVariable, Graph.setVariable, VariableTable.set, run_findVariable_bind]
  cases graph.table.key? name with
  | none => rfl
  | some key => exact run_setVariableKey graph key value

end InPlace

namespace Edit

/-- What an edit comes to that returns a new graph. -/
def outcome (graph : Graph α) : Edit α → Except Error (Option VariableKey × Graph α)
  | setOutput output => (graph.setOutput output).map (none, ·)
  | bindNode key index child => (graph.bindNode key index child).map (none, ·)
  | bindVariable key index variableKey => (graph.bindVariable key index variableKey).map (none, ·)
  | bindNamed key index name => (graph.bindNamed key index name).map (none, ·)
  | bindValue key index value => (graph.bindValue key index value).map fun (key, next) => (some key, next)
  | clearInput key index => (graph.clearInput key index).map (none, ·)
  | resetInputs key => (graph.resetInputs key).map (none, ·)
  | declareVariable name value => (graph.declareVariable name value).map fun (key, next) => (some key, next)
  | setVariable name value => (graph.setVariable name value).map (none, ·)
  | setVariableKey key value => (graph.setVariableKey key value).map (none, ·)

/-- An edit in place comes to what the edit comes to that returns a new graph. -/
theorem perform?_eq (edit : Edit α) (graph : Graph α) :
    edit.perform? graph = some (graph.commit (edit.outcome graph)) := by
  have hreturn : ∀ (steps : InPlace α Unit) (edited : Except Error (Graph α)),
      steps.run graph = some (graph.commit (edited.map ((), ·))) →
      (do steps; return none : InPlace α (Option VariableKey)).run graph =
        some (graph.commit (edited.map (none, ·))) := by
    intro steps edited hsteps
    rw [InPlace.run_bind, hsteps]
    cases edited <;> rfl
  have hkey : ∀ (steps : InPlace α VariableKey) (edited : Except Error (VariableKey × Graph α)),
      steps.run graph = some (graph.commit edited) →
      (some <$> steps).run graph = some (graph.commit (edited.map fun (key, next) => (some key, next))) := by
    intro steps edited hsteps
    rw [map_eq_pure_bind, InPlace.run_bind, hsteps]
    cases edited <;> rfl
  cases edit with
  | setOutput output => exact hreturn _ _ (InPlace.run_setOutput graph output)
  | bindNode key index child => exact hreturn _ _ (InPlace.run_bindNode graph key index child)
  | bindVariable key index variableKey => exact hreturn _ _ (InPlace.run_bindVariable graph key index variableKey)
  | bindNamed key index name => exact hreturn _ _ (InPlace.run_bindNamed graph key index name)
  | bindValue key index value => exact hkey _ _ (InPlace.run_bindValue graph key index value)
  | clearInput key index => exact hreturn _ _ (InPlace.run_clearInput graph key index)
  | resetInputs key => exact hreturn _ _ (InPlace.run_resetInputs graph key)
  | declareVariable name value => exact hkey _ _ (InPlace.run_declareVariable graph name value)
  | setVariable name value => exact hreturn _ _ (InPlace.run_setVariable graph name value)
  | setVariableKey key value => exact hreturn _ _ (InPlace.run_setVariableKey graph key value)

/-- The command that makes an edit. -/
def command : Edit α → Command α
  | setOutput output => .setOutput output
  | bindNode key index child => .bindNode key index child
  | bindVariable key index variableKey => .bindVariable key index variableKey
  | bindNamed key index name => .bindNamed key index name
  | bindValue key index value => .bindValue key index value
  | clearInput key index => .clearInput key index
  | resetInputs key => .resetInputs key
  | declareVariable name value => .declareVariable name value
  | setVariable name value => .setVariable name value
  | setVariableKey key value => .setVariableKey key value

/-- An edit in place leaves the graph that its command leads to, whether it fails or not. -/
theorem perform_snd [Scalar α] (edit : Edit α) (graph : Graph α) :
    (edit.perform graph).2 = edit.command.run graph := by
  have hkeep : ∀ {β : Type} (edited : Except Error β) (f : β → Option VariableKey × Graph α),
      (graph.commit (edited.map f)).2 = graph.orKeep (edited.map fun b => (f b).2) := by
    intro β edited f
    cases edited <;> rfl
  have hkeep' : ∀ edited : Except Error (Graph α),
      (graph.commit (edited.map fun next => ((none : Option VariableKey), next))).2 = graph.orKeep edited := by
    intro edited
    cases edited <;> rfl
  rw [perform, perform?_eq, Option.getD_some]
  cases edit with
  | bindValue key index value => exact hkeep _ _
  | declareVariable name value => exact hkeep _ _
  | _ => exact hkeep' _

end Edit

/-! ## What an edit writes -/

/-- The node with other contents of some inputs. -/
def Node.overwrite (node : Node α) (slots : Nat → Option Slot) : Node α :=
  { node with inputs := node.inputs.mapIdx fun index slot => (slots index).getD slot }

@[simp] theorem Node.overwrite_none (node : Node α) : node.overwrite (fun _ => none) = node := by
  have hinputs : (node.inputs.mapIdx fun _ slot => slot) = node.inputs := by
    apply List.ext_getElem <;> simp
  simp [overwrite, hinputs]

theorem Node.overwrite_single (node : Node α) (index : Nat) (slot : Slot) :
    (node.overwrite fun i => if i = index then some slot else none) = node.bind index slot := by
  have hinputs : (node.inputs.mapIdx fun i old => (if i = index then some slot else none).getD old) =
      node.inputs.set index slot := by
    apply List.ext_getElem
    · simp
    · intro i hi _
      simp only [List.getElem_mapIdx, List.getElem_set]
      grind
  rw [overwrite, bind, hinputs]

theorem Node.overwrite_all (node : Node α) (slot : Slot) :
    (node.overwrite fun _ => some slot) = { node with inputs := node.inputs.map fun _ => slot } := by
  have hinputs : (node.inputs.mapIdx fun _ _ => slot) = node.inputs.map fun _ => slot := by
    apply List.ext_getElem <;> simp
  simp [overwrite, hinputs]

/-- What an edit writes: the new content at each place, and none at the places that it leaves alone. -/
structure Footprint (α : Type) where
  output : Option (Option NodeKey) := none
  slot : NodeKey → Nat → Option Slot := fun _ _ => none
  entry : VariableKey → Option (Variable α) := fun _ => none
  name : String → Option VariableKey := fun _ => none

namespace Footprint

/-- A graph is another one with the footprint written over it. Nodes keep their kinds, caches and counts, and where
    nothing is written everything is as before. -/
structure Written (footprint : Footprint α) (graph next : Graph α) : Prop where
  skeleton : next.skeleton = graph.skeleton
  settings : next.settings = graph.settings
  frame : next.frame = graph.frame
  output : next.output = footprint.output.getD graph.output
  node : ∀ key, next.node? key = (graph.node? key).map (·.overwrite (footprint.slot key))
  entry : ∀ key, next.table.get? key = (footprint.entry key).or (graph.table.get? key)
  name : ∀ name, next.table.key? name = (footprint.name name).or (graph.table.key? name)

/-- One input of one node. -/
def input (key : NodeKey) (index : Nat) (slot : Slot) : NodeKey → Nat → Option Slot :=
  fun other i => if other = key then (if i = index then some slot else none) else none

/-- A new variable, and its name if it has one. -/
def added (graph : Graph α) (v : Variable α) : Footprint α where
  entry key := if key = graph.table.nextKey then some v else none
  name name := if v.name = some name then some graph.table.nextKey else none

/-- The value of one variable. -/
def assigned (graph : Graph α) (key : VariableKey) (value : Value α) : Footprint α where
  entry other := if other = key then (graph.table.get? other).map ({ · with value }) else none

variable {graph : Graph α}

theorem written_self (graph : Graph α) : ({} : Footprint α).Written graph graph where
  skeleton := rfl
  settings := rfl
  frame := rfl
  output := rfl
  node key := by simp
  entry key := by simp
  name name := by simp

/-- Binding an input comes on top of what else is written. -/
theorem Written.bindSlot {footprint : Footprint α} {next : Graph α} (h : footprint.Written graph next)
    (hslot : footprint.slot = fun _ _ => none) (key : NodeKey) (index : Nat) (slot : Slot) :
    ({ footprint with slot := input key index slot } : Footprint α).Written graph (next.bindSlot key index slot) where
  skeleton := h.skeleton
  settings := h.settings
  frame := h.frame
  output := h.output
  node other := by
    rw [Graph.node?_bindSlot, h.node, hslot]
    unfold input
    by_cases hother : other = key
    · simp [hother, Node.overwrite_single]
    · simp [hother]
  entry := h.entry
  name := h.name

theorem written_insert (graph : Graph α) (v : Variable α) :
    (added graph v).Written graph { graph with table := graph.table.insert v } where
  skeleton := rfl
  settings := rfl
  frame := rfl
  output := rfl
  node := (written_self graph).node
  entry key := by
    by_cases hkey : key = graph.table.nextKey <;> simp [VariableTable.get?_insert, added, hkey]
  name name := by
    by_cases hname : v.name = some name <;> simp [VariableTable.key?_insert, added, hname]

theorem written_setKey {table : VariableTable α} {key : VariableKey} {value : Value α}
    (h : graph.table.setKey key value = .ok table) :
    (assigned graph key value).Written graph { graph with table } where
  skeleton := rfl
  settings := rfl
  frame := rfl
  output := rfl
  node := (written_self graph).node
  entry other := by
    by_cases hother : other = key
    · cases hv : graph.table.get? key <;> simp [VariableTable.get?_setKey h, assigned, hother, hv]
    · simp [VariableTable.get?_setKey h, assigned, hother]
  name name := by rw [VariableTable.key?_setKey h]; rfl

end Footprint

/-- A node is there, and has an input of an index. -/
def Graph.HasInput (graph : Graph α) (key : NodeKey) (index : Nat) : Prop :=
  ∃ node, graph.node? key = some node ∧ index < node.inputs.length

/-- A variable is there, and values of a type can be assigned to it. -/
def VariableTable.HasVariable (table : VariableTable α) (key : VariableKey) (type : VariableType) : Prop :=
  ∃ v, table.get? key = some v ∧ v.value.type = type

namespace Edit

/-- What an edit is addressed to is there, and so is what it refers to. -/
def Addresses (graph : Graph α) : Edit α → Prop
  | setOutput output => ∀ key, output = some key → graph.nodes.contains key
  | bindNode key index child => graph.HasInput key index ∧ graph.nodes.contains child
  | bindVariable key index variableKey => graph.HasInput key index ∧ graph.table.contains variableKey
  | bindNamed key index name =>
    graph.HasInput key index ∧ ∃ variableKey, graph.table.key? name = some variableKey ∧ graph.table.contains variableKey
  | bindValue key index _ | clearInput key index => graph.HasInput key index
  | resetInputs key => graph.nodes.contains key
  | declareVariable name _ => graph.table.key? name = none
  | setVariable name value => ∃ key, graph.table.key? name = some key ∧ graph.table.HasVariable key value.type
  | setVariableKey key value => graph.table.HasVariable key value.type

/-- The key of the variable that an edit adds. -/
def newKey? (graph : Graph α) : Edit α → Option VariableKey
  | bindValue _ _ _ | declareVariable _ _ => some graph.table.nextKey
  | _ => none

/-- What an edit writes: one input, all inputs of one node, the output, the value of one variable, or a new variable, to
    which it may bind one input. -/
def footprint (graph : Graph α) : Edit α → Footprint α
  | setOutput output => { output := some output }
  | bindNode key index child => { slot := Footprint.input key index (.node child) }
  | bindVariable key index variableKey => { slot := Footprint.input key index (.variable variableKey) }
  | bindNamed key index name =>
    match graph.table.key? name with
    | some variableKey => { slot := Footprint.input key index (.variable variableKey) }
    | none => {}
  | bindValue key index value =>
    { Footprint.added graph ⟨none, value⟩ with
      slot := Footprint.input key index (.variable graph.table.nextKey) }
  | clearInput key index => { slot := Footprint.input key index .unbound }
  | resetInputs key => { slot := fun other _ => if other = key then some .unbound else none }
  | declareVariable name value => .added graph ⟨some name, value⟩
  | setVariable name value =>
    match graph.table.key? name with
    | some key => .assigned graph key value
    | none => {}
  | setVariableKey key value => .assigned graph key value

/-- An edit that succeeds was addressed to what is there, answers with the key that it adds, and writes its footprint. -/
structure Done (edit : Edit α) (graph : Graph α) (answer : Option VariableKey) (next : Graph α) : Prop where
  addresses : edit.Addresses graph
  answer_eq : answer = edit.newKey? graph
  written : (edit.footprint graph).Written graph next

theorem done_bindSlot {graph : Graph α} {key : NodeKey} {index : Nat} (slot : Slot)
    (h : graph.checkInput key index = .ok ()) :
    graph.HasInput key index ∧
      ({ slot := Footprint.input key index slot } : Footprint α).Written graph (graph.bindSlot key index slot) :=
  ⟨Graph.exists_of_checkInput h, (Footprint.written_self graph).bindSlot rfl key index slot⟩

theorem done_bindVariable {graph next : Graph α} {key : NodeKey} {index : Nat} {variableKey : VariableKey}
    (h : graph.bindVariable key index variableKey = .ok next) :
    (bindVariable key index variableKey : Edit α).Done graph none next := by
  obtain ⟨hlive, hcheck, rfl⟩ := Graph.bindVariable_eq_ok h
  obtain ⟨hinput, hwritten⟩ := done_bindSlot (.variable variableKey) hcheck
  exact ⟨⟨hinput, hlive⟩, rfl, hwritten⟩

theorem done_setKey {graph : Graph α} {table : VariableTable α} {key : VariableKey} {value : Value α}
    (h : graph.table.setKey key value = .ok table) :
    graph.table.HasVariable key value.type ∧
      (Footprint.assigned graph key value).Written graph { graph with table } := by
  obtain ⟨v, hv, htype, -⟩ := VariableTable.setKey_eq_ok h
  exact ⟨⟨v, hv, htype.symm⟩, Footprint.written_setKey h⟩

theorem done_of_outcome_eq_ok {edit : Edit α} {graph next : Graph α} {answer : Option VariableKey}
    (h : edit.outcome graph = .ok (answer, next)) : edit.Done graph answer next := by
  cases edit with
  | setOutput output =>
    obtain ⟨_, hset, heq⟩ := Graph.map_eq_ok h
    obtain ⟨hlive, rfl⟩ := Graph.setOutput_eq_ok hset
    cases heq
    exact ⟨hlive, rfl, { Footprint.written_self graph with output := rfl }⟩
  | bindNode key index child =>
    obtain ⟨_, hbind, heq⟩ := Graph.map_eq_ok h
    obtain ⟨hchild, hcheck, -, rfl⟩ := Graph.bindNode_eq_ok hbind
    cases heq
    obtain ⟨hinput, hwritten⟩ := done_bindSlot (.node child) hcheck
    exact ⟨⟨hinput, hchild⟩, rfl, hwritten⟩
  | bindVariable key index variableKey =>
    obtain ⟨_, hbind, heq⟩ := Graph.map_eq_ok h
    cases heq
    exact done_bindVariable hbind
  | bindNamed key index name =>
    obtain ⟨_, hnamed, heq⟩ := Graph.map_eq_ok h
    cases heq
    obtain ⟨variableKey, hkey, hbind⟩ := Graph.bindNamed_eq_ok hnamed
    obtain ⟨⟨hinput, hlive⟩, -, hwritten⟩ := done_bindVariable hbind
    exact ⟨⟨hinput, variableKey, hkey, hlive⟩, rfl, by simpa only [footprint, hkey] using hwritten⟩
  | bindValue key index value =>
    obtain ⟨⟨_, _⟩, hbind, heq⟩ := Graph.map_eq_ok h
    cases heq
    obtain ⟨hcheck, rfl, rfl⟩ := Graph.bindValue_eq_ok hbind
    exact ⟨Graph.exists_of_checkInput hcheck, rfl,
      (Footprint.written_insert graph ⟨none, value⟩).bindSlot rfl key index _⟩
  | clearInput key index =>
    obtain ⟨_, hclear, heq⟩ := Graph.map_eq_ok h
    cases heq
    obtain ⟨hcheck, rfl⟩ := Graph.clearInput_eq_ok hclear
    obtain ⟨hinput, hwritten⟩ := done_bindSlot .unbound hcheck
    exact ⟨hinput, rfl, hwritten⟩
  | resetInputs key =>
    obtain ⟨_, hreset, heq⟩ := Graph.map_eq_ok h
    cases heq
    obtain ⟨hlive, rfl⟩ := Graph.resetInputs_eq_ok hreset
    refine ⟨hlive, rfl, { Footprint.written_self graph with node := fun other => ?_ }⟩
    rw [Graph.node?, Arena.get?_modify]
    by_cases hother : other = key
    · simp [footprint, hother, Graph.node?, Node.overwrite_all]
    · simp [footprint, hother, Graph.node?]
  | declareVariable name value =>
    obtain ⟨⟨_, _⟩, hdeclare, heq⟩ := Graph.map_eq_ok h
    cases heq
    obtain ⟨table, htable, rfl⟩ := Graph.declareVariable_eq_ok hdeclare
    obtain ⟨hfree, rfl, rfl⟩ := VariableTable.declare_eq_ok htable
    exact ⟨hfree, rfl, Footprint.written_insert graph ⟨some name, value⟩⟩
  | setVariable name value =>
    obtain ⟨_, hset, heq⟩ := Graph.map_eq_ok h
    cases heq
    obtain ⟨table, htable, rfl⟩ := Graph.setVariable_eq_ok hset
    obtain ⟨key, hkey, htable⟩ := VariableTable.set_eq_ok htable
    obtain ⟨hvariable, hwritten⟩ := done_setKey htable
    exact ⟨⟨key, hkey, hvariable⟩, rfl, by simpa only [footprint, hkey] using hwritten⟩
  | setVariableKey key value =>
    obtain ⟨_, hset, heq⟩ := Graph.map_eq_ok h
    cases heq
    obtain ⟨table, htable, rfl⟩ := Graph.setVariableKey_eq_ok hset
    obtain ⟨hvariable, hwritten⟩ := done_setKey htable
    exact ⟨hvariable, rfl, hwritten⟩

/-- Every edit answers, whatever it is given and whatever the graph is. If it fails, the graph is in all parts as it
    was before; if it succeeds, what it is addressed to has changed as it says, and nothing else has. -/
theorem all_or_nothing (edit : Edit α) (graph : Graph α) :
    ∃ answer next, edit.perform? graph = some (answer, next) ∧
      match answer with
      | .ok key? => edit.Done graph key? next
      | .error _ => next = graph := by
  rw [perform?_eq]
  cases h : edit.outcome graph with
  | error cause => exact ⟨.error cause, graph, rfl, rfl⟩
  | ok done => exact ⟨.ok done.1, done.2, rfl, done_of_outcome_eq_ok h⟩

end Edit
end Armature
