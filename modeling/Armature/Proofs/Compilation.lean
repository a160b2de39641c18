import Armature.Proofs.InputBinding

/-!
# The compilation of descriptions

A description is compiled in passes: the variables are declared, the nodes are added, their inputs are bound, and the
output is chosen. A valid description is compiled, since every error names a defect and it has none; and what comes of it
is the graph that is described.
-/

namespace Armature

variable {α : Type}

theorem ValueDescription.resolve_eq_error {clips : ClipLibrary α} {value : ValueDescription α} {e : Error}
    (h : value.resolve clips = .error e) :
    ∃ name, value = .animation (some name) ∧ name ∉ clips ∧ e = .unknownClip name := by
  cases value with
  | bool b => cases h
  | float x => cases h
  | animation clip =>
    cases clip with
    | none => cases h
    | some name =>
      simp only [resolve] at h
      cases hclip : clips[name]? with
      | some clip => simp [hclip] at h
      | none =>
        rw [hclip] at h
        exact ⟨name, rfl, by simpa using hclip, (Except.error.inj h).symm⟩

theorem VariableTable.Exact.exists_find?_of_key? {table : VariableTable α} (h : table.Exact) {name : String}
    {key : VariableKey} (hkey : table.key? name = some key) : ∃ v, table.find? name = some v := by
  obtain ⟨v, hv, -⟩ := h.get?_of_key? hkey
  exact ⟨v, by simp [find?, hkey, hv]⟩

namespace Description

/-! ## Declaring the variables -/

section Declarations

variable [Scalar α] {d : Description α} {clips : ClipLibrary α} {skeleton : Asset (Skeleton α)}
  {settings : Settings α} {graph : Graph α}

/-- A graph with some declared variables and nothing else. -/
structure Declared (clips : ClipLibrary α) (skeleton : Asset (Skeleton α)) (settings : Settings α)
    (declarations : List (VariableDescription α)) (graph : Graph α) : Prop where
  reached : graph.ReachedBy (· ≠ .clearVariables)
  shape : graph = { Graph.ofSkeleton skeleton settings with table := graph.table }
  distinct : (declarations.map (·.name)).Nodup
  resolves : ∀ v ∈ declarations, ∃ value, v.value.Describes clips value
  named : ∀ name v, graph.table.find? name = some v ↔ Declares clips declarations name v
  unnamed : ∀ key v, graph.table.get? key = some v → v.name ≠ none

theorem Declared.exact {declarations : List (VariableDescription α)}
    (h : Declared clips skeleton settings declarations graph) : graph.table.Exact :=
  (h.reached.wellFormed fun hne => hne rfl : graph.WellFormed False).table.exact

theorem declared_nil (clips : ClipLibrary α) (skeleton : Asset (Skeleton α)) (settings : Settings α) :
    Declared clips skeleton settings [] (Graph.ofSkeleton skeleton settings) where
  reached := .new skeleton settings
  shape := rfl
  distinct := .nil
  resolves := by simp
  named name v := by simp [Declares, Graph.ofSkeleton, VariableTable.find?, VariableTable.key?, VariableTable.empty]
  unnamed key v hv := by simp [Graph.ofSkeleton, VariableTable.get?, VariableTable.empty] at hv

/-- The names that lead to a variable are those of the declarations. -/
theorem Declared.mem_names_iff {declarations : List (VariableDescription α)}
    (h : Declared clips skeleton settings declarations graph) (name : String) :
    name ∈ declarations.map (·.name) ↔ ∃ key, graph.table.key? name = some key := by
  constructor
  · intro hmem
    obtain ⟨declaration, hdeclaration, rfl⟩ := List.mem_map.1 hmem
    obtain ⟨value, hvalue⟩ := h.resolves declaration hdeclaration
    have hfind := (h.named _ _).2 ⟨declaration, hdeclaration, rfl, value, hvalue, rfl⟩
    obtain ⟨key, hkey, -⟩ := Option.bind_eq_some_iff.1 hfind
    exact ⟨key, hkey⟩
  · rintro ⟨key, hkey⟩
    obtain ⟨v, hv⟩ := h.exact.exists_find?_of_key? hkey
    obtain ⟨declaration, hdeclaration, hname, -⟩ := (h.named name v).1 hv
    exact hname ▸ List.mem_map_of_mem hdeclaration

omit [Scalar α] in
theorem declares_append_iff {declarations : List (VariableDescription α)} {declaration : VariableDescription α}
    {value : Value α} (hvalue : declaration.value.Describes clips value) (name : String) (v : Variable α) :
    Declares clips (declarations ++ [declaration]) name v ↔
      Declares clips declarations name v ∨ (declaration.name = name ∧ v = ⟨some name, value⟩) := by
  have hdescribes : ∀ other, declaration.value.Describes clips other ↔ other = value :=
    fun other => ⟨fun h => h.unique hvalue, fun h => h ▸ hvalue⟩
  simp only [Declares, List.mem_append, List.mem_singleton, or_and_right, exists_or, exists_eq_left, hdescribes]

/-- A variable of a free name is declared. -/
theorem Declared.append {declarations : List (VariableDescription α)} {v : VariableDescription α} {value : Value α}
    (h : Declared clips skeleton settings declarations graph) (hvalue : v.value.Describes clips value)
    (hfree : graph.table.key? v.name = none)
    (hreached : Graph.ReachedBy (· ≠ .clearVariables)
      { graph with table := graph.table.insert ⟨some v.name, value⟩ }) :
    Declared clips skeleton settings (declarations ++ [v])
      { graph with table := graph.table.insert ⟨some v.name, value⟩ } where
  reached := hreached
  shape := by
    rw [h.shape]
  distinct := by
    rw [List.map_append, List.nodup_append]
    refine ⟨h.distinct, List.nodup_singleton _, ?_⟩
    intro name hname other hother heq
    rw [List.map_singleton, List.mem_singleton] at hother
    obtain ⟨key, hkey⟩ := (h.mem_names_iff name).1 hname
    cases hfree.symm.trans (hother ▸ heq ▸ hkey)
  resolves := by
    intro other hother
    rcases List.mem_append.1 hother with hother | hother
    · exact h.resolves other hother
    · rw [List.mem_singleton.1 hother]
      exact ⟨value, hvalue⟩
  named := by
    intro name w
    rw [declares_append_iff hvalue, ← h.named, h.exact.find?_insert]
    by_cases hname : v.name = name
    · subst hname
      simp [VariableTable.find?, hfree, eq_comm]
    · simp [hname]
  unnamed := by
    intro key w hw
    rw [VariableTable.get?_insert] at hw
    split at hw
    · obtain rfl := Option.some.inj hw
      simp
    · exact h.unnamed key w hw

theorem Declared.outcome_declare {declarations rest : List (VariableDescription α)} {v : VariableDescription α}
    (h : Declared clips skeleton settings declarations graph) (hd : d.declarations = declarations ++ v :: rest) :
    Outcome (Declared clips skeleton settings (declarations ++ [v])) (d.Defect clips) (declare clips graph v) := by
  unfold declare
  cases hvalue : v.value.resolve clips with
  | error e =>
    obtain ⟨name, hname, hclip, rfl⟩ := ValueDescription.resolve_eq_error hvalue
    exact .unknownClip (by simp [hd]) hname hclip
  | ok value =>
    have hdeclare := graph.declareVariable_eq_match v.name value
    simp only [bind, Except.bind]
    cases hkey : graph.table.key? v.name with
    | some key =>
      -- the name is that of an earlier declaration
      have htaken := (h.mem_names_iff v.name).2 ⟨key, hkey⟩
      simp only [hkey] at hdeclare
      simp only [hdeclare]
      refine .duplicateVariable (List.duplicate_iff_sublist.2 ?_)
      rw [names, hd, List.map_append, List.map_cons]
      exact (List.singleton_sublist.2 htaken).append (List.singleton_sublist.2 List.mem_cons_self)
    | none =>
      simp only [hkey] at hdeclare
      have hreached := h.reached.of_eq_ok (.declareVariable v.name value) (by simp) rfl
        (congrArg (Except.map (·.2)) hdeclare)
      simp only [hdeclare]
      exact h.append (ValueDescription.resolve_eq_ok_iff.1 hvalue) hkey hreached

/-- Declaring the variables one by one. -/
theorem outcome_declarations (d : Description α) (clips : ClipLibrary α) (skeleton : Asset (Skeleton α))
    (settings : Settings α) :
    Outcome (Declared clips skeleton settings d.declarations) (d.Defect clips)
      (d.declarations.foldlM (declare clips) (Graph.ofSkeleton skeleton settings)) := by
  have hall : Outcome (Declared clips skeleton settings (d.declarations.take d.declarations.length)) (d.Defect clips)
      (d.declarations.foldlM (declare clips) (Graph.ofSkeleton skeleton settings)) := by
    refine Outcome.foldlM (fun i => Declared clips skeleton settings (d.declarations.take i))
      (declared_nil clips skeleton settings) ?_
    intro i v next hv hnext
    obtain ⟨hi, rfl⟩ := List.getElem?_eq_some_iff.1 hv
    have hd : d.declarations = d.declarations.take i ++ d.declarations[i] :: d.declarations.drop (i + 1) := by
      rw [← List.drop_eq_getElem_cons hi, List.take_append_drop]
    rw [List.take_add_one, hv]
    exact hnext.outcome_declare hd
  rwa [List.take_length] at hall

end Declarations

/-! ## Adding the nodes -/

section Nodes

variable [Scalar α] {graph next : Graph α} {kinds : List NodeKind} {keys : List NodeKey}

/-- Nodes of some kinds are added to a graph, under keys that it has not handed out. -/
structure Adds (graph : Graph α) (kinds : List NodeKind) (keys : List NodeKey) (next : Graph α) : Prop where
  shape : next = { graph with nodes := next.nodes }
  length : keys.length = kinds.length
  nodup : keys.Nodup
  fresh : ∀ key ∈ keys, graph.nodes.issued ≤ key.id
  node : ∀ (place : Nat) (key : NodeKey) (kind : NodeKind), keys[place]? = some key → kinds[place]? = some kind →
    next.node? key = some (.ofKind kind)
  rest : ∀ key, key ∉ keys → next.node? key = graph.node? key

theorem adds_addNodes (graph : Graph α) (kinds : List NodeKind) :
    Adds graph kinds (addNodes graph kinds).1 (addNodes graph kinds).2 := by
  induction kinds generalizing graph with
  | nil =>
    exact ⟨rfl, rfl, .nil, by simp [addNodes], by simp [addNodes], fun _ _ => rfl⟩
  | cons kind kinds ih =>
    obtain ⟨hshape, hlength, hnodup, hfresh, hnode, hrest⟩ := ih (graph.addNode kind).2
    simp only [addNodes]
    have hlater : (graph.addNode kind).1 ∉ (addNodes (graph.addNode kind).2 kinds).1 := by
      intro hmem
      exact absurd (hfresh _ hmem) (Nat.not_succ_le_self _)
    have hfirst : ∀ key, (graph.addNode kind).2.node? key =
        if key = (graph.addNode kind).1 then some (.ofKind kind) else graph.node? key :=
      fun key => Arena.get?_insert _ _ _
    refine ⟨?_, by simpa using hlength, List.nodup_cons.2 ⟨hlater, hnodup⟩, ?_, ?_, ?_⟩
    · rw [hshape]
      rfl
    · intro key hkey
      rcases List.mem_cons.1 hkey with rfl | hkey
      · exact Nat.le_refl _
      · exact Nat.le_of_succ_le (hfresh key hkey)
    · intro place key other hkey hkind
      cases place with
      | zero =>
        obtain rfl : (graph.addNode kind).1 = key := by simpa using hkey
        obtain rfl : kind = other := by simpa using hkind
        exact (hrest _ hlater).trans ((hfirst _).trans (if_pos rfl))
      | succ place => exact hnode place key other (by simpa using hkey) (by simpa using hkind)
    · intro key hkey
      rw [List.mem_cons, not_or] at hkey
      rw [hrest key hkey.2, hfirst, if_neg hkey.1]

theorem Adds.exists_kind (h : Adds graph kinds keys next) {place : Nat} {key : NodeKey}
    (hkey : keys[place]? = some key) : ∃ kind, next.node? key = some (.ofKind kind) := by
  have hplace := h.length ▸ (List.getElem?_eq_some_iff.1 hkey).1
  exact ⟨_, h.node place key _ hkey (List.getElem?_eq_getElem hplace)⟩

theorem Adds.contains_iff (h : Adds graph kinds keys next) (hempty : ∀ key, graph.node? key = none) (key : NodeKey) :
    next.nodes.contains key ↔ key ∈ keys := by
  constructor
  · intro hcontains
    by_contra hkey
    obtain ⟨node, hnode⟩ := Nodes.get?_of_contains hcontains
    cases hnode.symm.trans ((h.rest key hkey).trans (hempty key))
  · intro hmem
    obtain ⟨place, hkey⟩ := List.mem_iff_getElem?.1 hmem
    obtain ⟨kind, hkind⟩ := h.exists_kind hkey
    exact Nodes.contains_of_get? hkind

theorem Adds.slotAt (h : Adds graph kinds keys next) (site : Nat × Nat) : next.slotAt keys site = .unbound := by
  unfold Graph.slotAt
  cases hkey : keys[site.1]? with
  | none => rfl
  | some key =>
    obtain ⟨kind, hkind⟩ := h.exists_kind hkey
    simp only [Option.bind_some, hkind, Node.input, Node.ofKind, List.getElem?_replicate]
    split <;> rfl

theorem reachedBy_addNodes {allowed : Command α → Prop} (h : graph.ReachedBy allowed)
    (hallowed : ∀ kind, allowed (.addNode kind)) (kinds : List NodeKind) :
    (addNodes graph kinds).2.ReachedBy allowed := by
  induction kinds generalizing graph with
  | nil => exact h
  | cons kind kinds ih => exact ih (h.step (hallowed kind))

/-- The declared variables and the nodes are what is described without the inputs and the output. -/
theorem Declared.builds {d : Description α} {clips : ClipLibrary α} {skeleton : Asset (Skeleton α)}
    {settings : Settings α} (h : Declared clips skeleton settings d.declarations graph) :
    d.Builds clips skeleton settings (addNodes graph (d.nodes.map (·.kind))).1 (fun _ => none) none
      (addNodes graph (d.nodes.map (·.kind))).2 := by
  have hreached := reachedBy_addNodes h.reached (by simp) (d.nodes.map (·.kind))
  have hadds := adds_addNodes graph (d.nodes.map (·.kind))
  generalize (addNodes graph (d.nodes.map (·.kind))).1 = keys at *
  generalize (addNodes graph (d.nodes.map (·.kind))).2 = next at *
  have hshape : next = { Graph.ofSkeleton skeleton settings with nodes := next.nodes, table := graph.table } := by
    rw [hadds.shape, h.shape]
  have hempty : ∀ key, graph.node? key = none := by
    intro key
    rw [h.shape]
    exact Arena.get?_empty key
  exact {
    reached := hreached
    skeleton_eq := by rw [hshape]; rfl
    settings_eq := by rw [hshape]; rfl
    frame_eq := by rw [hshape]; rfl
    output_eq := by rw [hshape]; rfl
    length := by simpa using hadds.length
    nodup := hadds.nodup
    contains := hadds.contains_iff hempty
    node := by
      intro place key described hkey hdescribed
      refine ⟨List.replicate described.kind.arity .unbound, by simp, ?_⟩
      exact hadds.node place key described.kind hkey (by simp [hdescribed])
    slot := by
      intro site
      rw [hadds.slotAt]
      exact .unbound
    index := by
      rw [hshape]
      exact h.exact
    named := by
      rw [hshape]
      exact h.named
    unnamed := by
      intro key v hv hnone
      rw [hshape] at hv
      exact absurd hnone (h.unnamed key v hv) }

end Nodes

/-! ## The graph that is described -/

section Compile

variable [Scalar α] {d : Description α} {clips : ClipLibrary α} {skeleton : Asset (Skeleton α)}
  {settings : Settings α} {keys : List NodeKey} {output : Option NodeKey} {graph : Graph α}

/-- Where a node uses another, the graph that is built has a binding. -/
theorem Builds.exists_binds (h : d.Builds clips skeleton settings keys d.inputAt output graph) {place child : Nat}
    {key : NodeKey} (hkey : keys[place]? = some key) (huses : d.Uses place child) :
    ∃ other, keys[child]? = some other ∧ graph.nodes.Binds key other := by
  obtain ⟨index, hinput⟩ := uses_iff.1 huses
  obtain ⟨other, hother, -⟩ := (hinput ▸ h.slot (place, index)).exists_of_node
  exact ⟨other, hother, (h.binds_iff hkey other).2 ⟨child, index, hother, hinput⟩⟩

/-- The nodes of a description from which a graph is built use each other without a cycle. -/
theorem Builds.acyclic (h : d.Builds clips skeleton settings keys d.inputAt output graph) (place : Nat) :
    ¬ Relation.TransGen d.Uses place place := by
  have hway : ∀ start finish, Relation.TransGen d.Uses start finish → ∀ key, keys[start]? = some key →
      ∃ other, keys[finish]? = some other ∧ Relation.TransGen graph.nodes.Binds key other := by
    intro start finish huses key hkey
    induction huses with
    | single huses =>
      obtain ⟨other, hother, hbinds⟩ := h.exists_binds hkey huses
      exact ⟨other, hother, .single hbinds⟩
    | tail _ huses ih =>
      obtain ⟨parent, hparent, hway⟩ := ih
      obtain ⟨other, hother, hbinds⟩ := h.exists_binds hparent huses
      exact ⟨other, hother, hway.tail hbinds⟩
  intro hcycle
  obtain ⟨child, ⟨node, hnode, -⟩, -⟩ := Relation.TransGen.head'_iff.1 hcycle
  have hplace := h.length ▸ (List.getElem?_eq_some_iff.1 hnode).1
  obtain ⟨other, hother, hbinds⟩ := hway place place hcycle keys[place] (List.getElem?_eq_getElem hplace)
  obtain rfl := Option.some.inj ((List.getElem?_eq_getElem hplace).symm.trans hother)
  exact h.wellFormed.acyclic _ hbinds

/-- A description from which a graph is built is valid. -/
theorem Builds.valid (h : d.Builds clips skeleton settings keys d.inputAt output graph) (hnames : d.names.Nodup)
    (hresolves : ∀ v ∈ d.declarations, ∃ value, v.value.Describes clips value)
    (harity : ∀ node ∈ d.nodes, node.inputs.length ≤ node.kind.arity)
    (houtput : ∀ place, d.output = some place → place < d.nodes.length) : d.Valid clips where
  names := hnames
  clips v hv name hname := by
    obtain ⟨value, hvalue⟩ := hresolves v hv
    rw [hname] at hvalue
    cases hvalue with
    | clip hclip => exact Std.ExtTreeMap.mem_iff_isSome_getElem?.2 (by simp [hclip])
  arity := harity
  children node hnode child hchild := by
    obtain ⟨site, hsite⟩ := exists_inputAt_of_mem hnode hchild
    obtain ⟨key, hkey, -⟩ := (hsite ▸ h.slot site).exists_of_node
    exact h.length ▸ (List.getElem?_eq_some_iff.1 hkey).1
  output := houtput
  variableNames node hnode name hname := by
    obtain ⟨site, hsite⟩ := exists_inputAt_of_mem hnode hname
    obtain ⟨key, hkey, -⟩ := (hsite ▸ h.slot site).exists_of_variable
    obtain ⟨v, hv⟩ := h.index.exists_find?_of_key? hkey
    obtain ⟨declaration, hdeclaration, hdeclared, -⟩ := (h.named name v).1 hv
    exact List.mem_map.2 ⟨declaration, hdeclaration, hdeclared⟩
  acyclic := h.acyclic

theorem Builds.setOutput (h : d.Builds clips skeleton settings keys d.inputAt output graph) {key : NodeKey}
    (hkey : key ∈ keys) :
    ∃ next, graph.setOutput (some key) = .ok next ∧
      d.Builds clips skeleton settings keys d.inputAt (some key) next := by
  have hnext : graph.setOutput (some key) = .ok { graph with output := some key } := by
    simp [Graph.setOutput, (h.contains key).2 hkey]
  have hreached := h.reached.of_eq_ok (.setOutput (some key)) (by simp) rfl hnext
  exact ⟨_, hnext, { h with reached := hreached, output_eq := rfl }⟩

/-- What the compilation comes to: the graph of a valid description, or an error that names a defect. -/
theorem outcome_compile (d : Description α) (clips : ClipLibrary α) (skeleton : Asset (Skeleton α))
    (settings : Settings α) :
    Outcome (fun graph => d.Valid clips ∧
        ∃ keys, d.Builds clips skeleton settings keys d.inputAt (d.output.bind (keys[·]?)) graph)
      (d.Defect clips) (d.compile skeleton clips settings) := by
  refine (outcome_declarations d clips skeleton settings).bind fun declared hdeclared => ?_
  have hbuilds := hdeclared.builds
  simp only
  generalize (addNodes declared (d.nodes.map (·.kind))).1 = keys at *
  generalize (addNodes declared (d.nodes.map (·.kind))).2 = added at *
  refine (hbuilds.outcome_bindAll hdeclared.resolves).bind fun graph hgraph => ?_
  obtain ⟨hgraph, harity⟩ := hgraph
  rw [before_length] at hgraph
  rw [List.take_length] at harity
  have hvalid := hgraph.valid hdeclared.distinct hdeclared.resolves harity
  cases houtput : d.output with
  | none => exact ⟨hvalid (by simp [houtput]), keys, hgraph⟩
  | some place =>
    simp only
    cases hkey : keys[place]? with
    | none => exact .missingOutput houtput (hgraph.length ▸ List.getElem?_eq_none_iff.1 hkey)
    | some key =>
      obtain ⟨next, hnext, hbuilds⟩ := hgraph.setOutput (List.mem_of_getElem? hkey)
      simp only [hnext]
      have hplace := hgraph.length ▸ (List.getElem?_eq_some_iff.1 hkey).1
      refine ⟨hvalid (by simpa [houtput] using hplace), keys, ?_⟩
      rwa [Option.bind_some, hkey]

theorem builds_of_compile (h : d.compile skeleton clips settings = .ok graph) :
    d.Valid clips ∧ ∃ keys, d.Builds clips skeleton settings keys d.inputAt (d.output.bind (keys[·]?)) graph := by
  have hcompile := outcome_compile d clips skeleton settings
  rwa [h] at hcompile

theorem defect_of_compile {e : Error} (h : d.compile skeleton clips settings = .error e) : d.Defect clips e := by
  have hcompile := outcome_compile d clips skeleton settings
  rwa [h] at hcompile

/-- A valid description is compiled: any error would be a defect, and it has none. -/
theorem Valid.exists_compile (h : d.Valid clips) (skeleton : Asset (Skeleton α)) (settings : Settings α) :
    ∃ graph, d.compile skeleton clips settings = .ok graph := by
  cases hcompile : d.compile skeleton clips settings with
  | ok graph => exact ⟨graph, rfl⟩
  | error e => exact absurd (defect_of_compile hcompile) (h.not_defect e)

/-- Exactly the valid descriptions are compiled. What comes of one is the graph that it describes, and what comes of
    another is an error that says what is wrong with it. -/
theorem compile_spec (d : Description α) (clips : ClipLibrary α) (skeleton : Asset (Skeleton α))
    (settings : Settings α) :
    ((∃ graph, d.compile skeleton clips settings = .ok graph) ↔ d.Valid clips) ∧
    (∀ graph, d.compile skeleton clips settings = .ok graph →
      ∃ keys, d.Builds clips skeleton settings keys d.inputAt (d.output.bind (keys[·]?)) graph) ∧
    ∀ e, d.compile skeleton clips settings = .error e → d.Defect clips e := by
  refine ⟨⟨?_, fun h => h.exists_compile skeleton settings⟩, ?_, ?_⟩
  · rintro ⟨graph, hgraph⟩
    exact (builds_of_compile hgraph).1
  · intro graph hgraph
    exact (builds_of_compile hgraph).2
  · intro e he
    exact defect_of_compile he

end Compile

/-- A blend of a clip sampler that comes after it with itself, by a declared weight. The sampler plays a declared clip,
    and there is a place for another one. -/
def stride : Description Binary32 where
  declarations := [⟨"weight", .float 1⟩, ⟨"looping", .bool true⟩, ⟨"next", .animation none⟩,
    ⟨"clip", .animation (some "hop")⟩]
  nodes := [⟨.blend, [some (.node 1), some (.node 1), some (.variable "weight")]⟩,
    ⟨.clipSampler, [some (.variable "clip"), some (.float 1), some (.variable "looping")]⟩]
  output := some 0

/-- A library of one clip. -/
def library : ClipLibrary Binary32 := (∅ : ClipLibrary Binary32).insert "hop" hop

theorem valid_stride : stride.Valid library := by
  refine ⟨by decide, by simp [stride, library], by decide, by simp [stride], by simp [stride],
    by simp [stride, names], ?_⟩
  have hlater : ∀ place child, stride.Uses place child → place < child := by
    rintro place child ⟨node, hnode, hchild⟩
    match place with
    | 0 =>
      obtain rfl := Option.some.inj hnode
      simp at hchild
      omega
    | 1 =>
      obtain rfl := Option.some.inj hnode
      simp at hchild
    | place + 2 => simp [stride] at hnode
  intro place hcycle
  have hlt := Relation.TransGen.mono hlater place place hcycle
  rw [Relation.transGen_eq_self] at hlt
  exact lt_irrefl _ hlt

/-- The declared variables hold what is described, the clip being that of the library; without it nothing is compiled. -/
theorem compile_spec_stride :
    (∃ graph keys, stride.compile oneBone library .default = .ok graph ∧
      stride.Builds library oneBone .default keys stride.inputAt (keys[0]?) graph ∧
      graph.table.find? "weight" = some ⟨some "weight", .float 1⟩ ∧
      graph.table.find? "looping" = some ⟨some "looping", .bool true⟩ ∧
      graph.table.find? "next" = some ⟨some "next", .animation none⟩ ∧
      graph.table.find? "clip" = some ⟨some "clip", .animation (some hop)⟩) ∧
    ¬ ∃ graph, stride.compile oneBone ∅ .default = .ok graph := by
  obtain ⟨hiff, hbuilds, -⟩ := stride.compile_spec library oneBone .default
  obtain ⟨hempty, -, -⟩ := stride.compile_spec ∅ oneBone .default
  constructor
  · obtain ⟨graph, hgraph⟩ := hiff.2 valid_stride
    obtain ⟨keys, hkeys⟩ := hbuilds graph hgraph
    have hclip : library["hop"]? = some hop := by simp [library]
    have hnamed := hkeys.named
    refine ⟨graph, keys, hgraph, hkeys, (hnamed _ _).2 ?_, (hnamed _ _).2 ?_, (hnamed _ _).2 ?_, (hnamed _ _).2 ?_⟩
    · exact ⟨⟨"weight", .float 1⟩, by simp [stride], rfl, _, .float 1, rfl⟩
    · exact ⟨⟨"looping", .bool true⟩, by simp [stride], rfl, _, .bool true, rfl⟩
    · exact ⟨⟨"next", .animation none⟩, by simp [stride], rfl, _, .noClip, rfl⟩
    · exact ⟨⟨"clip", .animation (some "hop")⟩, by simp [stride], rfl, _, .clip hclip, rfl⟩
  · intro hcompile
    have hclip := (hempty.1 hcompile).clips ⟨"clip", .animation (some "hop")⟩ (by simp [stride]) "hop" rfl
    simp at hclip

end Description
end Armature
