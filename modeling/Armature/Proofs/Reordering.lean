import Armature.Proofs.Compilation
import Armature.Proofs.Observation
import Mathlib.Logic.Equiv.Fin.Basic

/-!
# The order of the nodes in a description

A description refers to nodes by their place, so its nodes can be listed in another order if the places are renumbered
(`Description.reorder`). The graphs that are compiled then have their nodes and the variables of their inputs under
other keys; but they are twins, and the same is seen of them.
-/

namespace Armature

variable {α : Type}

/-- What is described of an input when the places of the nodes are renumbered. -/
def InputDescription.renumber (renumbering : Nat → Nat) : InputDescription α → InputDescription α
  | .node place => .node (renumbering place)
  | .variable name => .variable name
  | .bool b => .bool b
  | .float x => .float x

def NodeDescription.renumber (renumbering : Nat → Nat) (node : NodeDescription α) : NodeDescription α :=
  { node with inputs := node.inputs.map (Option.map (InputDescription.renumber renumbering)) }

theorem InputDescription.renumber_symm (renumbering : Equiv.Perm Nat) (input : InputDescription α) :
    (input.renumber renumbering).renumber renumbering.symm = input := by
  cases input <;> simp [InputDescription.renumber]

theorem NodeDescription.renumber_symm (renumbering : Equiv.Perm Nat) (node : NodeDescription α) :
    (node.renumber renumbering).renumber renumbering.symm = node := by
  simp [NodeDescription.renumber, Function.comp_def, InputDescription.renumber_symm]

/-- The inputs of a renumbered node are renumbered. -/
theorem NodeDescription.exists_mem_of_renumber {renumbering : Nat → Nat} {node : NodeDescription α}
    {input' : InputDescription α} (h : some input' ∈ (node.renumber renumbering).inputs) :
    ∃ input, some input ∈ node.inputs ∧ input' = input.renumber renumbering := by
  obtain ⟨input, hinput, heq⟩ := List.mem_map.1 h
  obtain ⟨input, rfl, rfl⟩ := Option.map_eq_some_iff.1 heq
  exact ⟨input, hinput, rfl⟩

namespace Description

/-- Where the nodes go in another order. A place where no node is stays as it is. -/
def renumbering {length : Nat} (order : Equiv.Perm (Fin length)) : Equiv.Perm Nat :=
  order.extendDomain Fin.equivSubtype

/-- The description with its nodes listed in another order: a node goes from its place to that which the order gives it,
    and the inputs and the output refer to the nodes where they are then. -/
def reorder (d : Description α) (order : Equiv.Perm (Fin d.nodes.length)) : Description α where
  declarations := d.declarations
  nodes := List.ofFn fun place => (d.nodes.get (order.symm place)).renumber (renumbering order)
  output := d.output.map (renumbering order)

/-- The nodes of a description are those of another at renumbered places. -/
structure Reordered (renumbering : Equiv.Perm Nat) (d d' : Description α) : Prop where
  declarations : d'.declarations = d.declarations
  nodes : ∀ place, d'.nodes[renumbering place]? = (d.nodes[place]?).map (·.renumber renumbering)
  output : d'.output = d.output.map renumbering

theorem renumbering_of_lt {length : Nat} (order : Equiv.Perm (Fin length)) {place : Nat} (h : place < length) :
    renumbering order place = order ⟨place, h⟩ :=
  order.extendDomain_apply_image Fin.equivSubtype ⟨place, h⟩

theorem renumbering_of_le {length : Nat} (order : Equiv.Perm (Fin length)) {place : Nat} (h : length ≤ place) :
    renumbering order place = place :=
  order.extendDomain_apply_not_subtype Fin.equivSubtype (Nat.not_lt.2 h)

theorem reordered_reorder (d : Description α) (order : Equiv.Perm (Fin d.nodes.length)) :
    Reordered (renumbering order) d (d.reorder order) where
  declarations := rfl
  nodes place := by
    by_cases h : place < d.nodes.length
    · rw [renumbering_of_lt order h]
      simp [reorder, h]
    · have h := Nat.not_lt.1 h
      rw [renumbering_of_le order h]
      simp [reorder, h]
  output := rfl

section Reordered

variable {ρ : Equiv.Perm Nat} {d d' : Description α} {clips : ClipLibrary α}

theorem Reordered.symm (h : Reordered ρ d d') : Reordered ρ.symm d' d where
  declarations := h.declarations.symm
  nodes place := by
    have hnode := h.nodes (ρ.symm place)
    rw [Equiv.apply_symm_apply] at hnode
    simp [hnode, Function.comp_def, NodeDescription.renumber_symm]
  output := by
    simp [h.output, Function.comp_def]

theorem Reordered.inputAt (h : Reordered ρ d d') (place index : Nat) :
    d'.inputAt (ρ place, index) = (d.inputAt (place, index)).map (·.renumber ρ) := by
  simp only [Description.inputAt, h.nodes]
  cases hnode : d.nodes[place]? with
  | none => rfl
  | some node =>
    cases hinput : node.inputs[index]? with
    | none => simp [NodeDescription.renumber, hinput]
    | some input => simp [NodeDescription.renumber, hinput]

theorem Reordered.lt_length (h : Reordered ρ d d') {place : Nat} (hplace : place < d.nodes.length) :
    ρ place < d'.nodes.length := by
  have hnode := h.nodes place
  rw [List.getElem?_eq_getElem hplace] at hnode
  exact (List.getElem?_eq_some_iff.1 hnode).1

/-- A node of the one description is a renumbered node of the other. -/
theorem Reordered.exists_mem (h : Reordered ρ d d') {node' : NodeDescription α} (hnode' : node' ∈ d'.nodes) :
    ∃ node ∈ d.nodes, node' = node.renumber ρ := by
  obtain ⟨place, hplace⟩ := List.mem_iff_getElem?.1 hnode'
  have hnode := h.nodes (ρ.symm place)
  rw [Equiv.apply_symm_apply, hplace] at hnode
  obtain ⟨node, hget, heq⟩ := Option.map_eq_some_iff.1 hnode.symm
  exact ⟨node, List.mem_of_getElem? hget, heq.symm⟩

theorem Reordered.uses (h : Reordered ρ d d') {place child : Nat} (huses : d.Uses place child) :
    d'.Uses (ρ place) (ρ child) := by
  obtain ⟨index, hinput⟩ := uses_iff.1 huses
  refine uses_iff.2 ⟨index, ?_⟩
  rw [h.inputAt, hinput]
  rfl

/-- The nodes of a valid description can be listed in another order. -/
theorem Reordered.valid (h : Reordered ρ d d') (hvalid : d.Valid clips) : d'.Valid clips where
  names := by
    rw [names, h.declarations]
    exact hvalid.names
  clips := by
    rw [h.declarations]
    exact hvalid.clips
  arity node' hnode' := by
    obtain ⟨node, hnode, rfl⟩ := h.exists_mem hnode'
    simpa [NodeDescription.renumber] using hvalid.arity node hnode
  children node' hnode' child' hchild' := by
    obtain ⟨node, hnode, rfl⟩ := h.exists_mem hnode'
    obtain ⟨input, hinput, heq⟩ := NodeDescription.exists_mem_of_renumber hchild'
    cases input with
    | node child =>
      obtain rfl := InputDescription.node.inj heq
      exact h.lt_length (hvalid.children node hnode child hinput)
    | _ => cases heq
  output place' hplace' := by
    rw [h.output] at hplace'
    obtain ⟨place, hplace, rfl⟩ := Option.map_eq_some_iff.1 hplace'
    exact h.lt_length (hvalid.output place hplace)
  variableNames node' hnode' name hname := by
    obtain ⟨node, hnode, rfl⟩ := h.exists_mem hnode'
    obtain ⟨input, hinput, heq⟩ := NodeDescription.exists_mem_of_renumber hname
    rw [names, h.declarations]
    cases input with
    | «variable» name =>
      obtain rfl := InputDescription.variable.inj heq
      exact hvalid.variableNames node hnode _ hinput
    | _ => cases heq
  acyclic place hcycle := by
    refine hvalid.acyclic (ρ.symm place) (Relation.TransGen.lift ρ.symm ?_ _ _ hcycle)
    intro parent child huses
    exact h.symm.uses huses

end Reordered

/-! ## Twins -/

section Twins

variable [Scalar α] {ρ : Equiv.Perm Nat} {d d' : Description α} {clips : ClipLibrary α}
  {skeleton : Asset (Skeleton α)} {settings : Settings α} {keys keys' : List NodeKey} {graph twin : Graph α}

/-- Two keys belong to the same node in two orders. -/
def Corresponds (ρ : Equiv.Perm Nat) (keys keys' : List NodeKey) (key key' : NodeKey) : Prop :=
  ∃ place : Nat, keys[place]? = some key ∧ keys'[ρ place]? = some key'

omit [Scalar α] in
/-- Two slots that are built from the same input in two orders read alike. -/
theorem SlotBuilt.slotTwin {table table' : VariableTable α} {input : Option (InputDescription α)} {slot slot' : Slot}
    (h : SlotBuilt keys table input slot) (h' : SlotBuilt keys' table' (input.map (·.renumber ρ)) slot')
    (hnames : ∀ name, table.find? name = table'.find? name) :
    Graph.SlotTwin (Corresponds ρ keys keys') table table' slot slot' := by
  cases h with
  | unbound =>
    cases h'
    exact .held rfl rfl rfl
  | toNode hkey =>
    cases h' with
    | toNode hkey' => exact .node ⟨_, hkey, hkey'⟩
  | @toNamed name key hkey =>
    cases h' with
    | toNamed hkey' =>
      refine .held rfl rfl ?_
      have hname := hnames name
      rw [VariableTable.find?, VariableTable.find?, hkey, hkey'] at hname
      exact hname
  | toBool hget =>
    cases h' with
    | toBool hget' => exact .held rfl rfl (hget.trans hget'.symm)
  | toFloat hget =>
    cases h' with
    | toFloat hget' => exact .held rfl rfl (hget.trans hget'.symm)

/-- The named variables depend on the declarations alone. -/
theorem Builds.find?_eq {inputs inputs' : Nat × Nat → Option (InputDescription α)} {output output' : Option NodeKey}
    (h : d.Builds clips skeleton settings keys inputs output graph)
    (h' : d'.Builds clips skeleton settings keys' inputs' output' twin)
    (hdeclarations : d'.declarations = d.declarations) (name : String) :
    graph.table.find? name = twin.table.find? name := by
  apply Option.ext
  intro v
  rw [h.named, h'.named, hdeclarations]

/-- The graphs of a description in two orders are twins. -/
theorem Builds.twins (h : d.Builds clips skeleton settings keys d.inputAt (d.output.bind (keys[·]?)) graph)
    (h' : d'.Builds clips skeleton settings keys' d'.inputAt (d'.output.bind (keys'[·]?)) twin)
    (hvalid : d.Valid clips) (hreordered : Reordered ρ d d') :
    Graph.Twins (Corresponds ρ keys keys') graph twin where
  skeleton := h.skeleton_eq.trans h'.skeleton_eq.symm
  settings := h.settings_eq.trans h'.settings_eq.symm
  frame := h.frame_eq.trans h'.frame_eq.symm
  names := h.find?_eq h' hreordered.declarations
  unique := by
    constructor
    · rintro key key' other ⟨place, hkey, hother⟩ ⟨place', hkey', hother'⟩
      obtain rfl := ρ.injective (h'.place_unique hother hother')
      exact Option.some.inj (hkey.symm.trans hkey')
    · rintro key other other' ⟨place, hkey, hother⟩ ⟨place', hkey', hother'⟩
      obtain rfl := h.place_unique hkey hkey'
      exact Option.some.inj (hother.symm.trans hother')
  output := by
    rw [h.output_eq, h'.output_eq, hreordered.output]
    cases houtput : d.output with
    | none => exact .none
    | some place =>
      have hplace := h.length ▸ hvalid.output place houtput
      have hplace' := h'.length ▸ hreordered.lt_length (hvalid.output place houtput)
      simp only [Option.bind_some, Option.map_some, List.getElem?_eq_getElem hplace, List.getElem?_eq_getElem hplace']
      exact .some ⟨place, List.getElem?_eq_getElem hplace, List.getElem?_eq_getElem hplace'⟩
  nodes := by
    rintro key key' ⟨place, hkey, hkey'⟩
    have hplace := h.length ▸ (List.getElem?_eq_some_iff.1 hkey).1
    have hdescribed := List.getElem?_eq_getElem hplace
    have hdescribed' := hreordered.nodes place
    rw [hdescribed, Option.map_some] at hdescribed'
    obtain ⟨slots, hlength, hnode⟩ := h.node place key _ hkey hdescribed
    obtain ⟨slots', hlength', hnode'⟩ := h'.node (ρ place) key' _ hkey' hdescribed'
    refine ⟨_, _, hnode, hnode', rfl, rfl, rfl, List.forall₂_iff_get.2 ⟨hlength.trans hlength'.symm, ?_⟩⟩
    intro index hindex hindex'
    have hslot := h.slot (place, index)
    have hslot' := h'.slot (ρ place, index)
    rw [slotAt_of_node? hkey hnode] at hslot
    rw [slotAt_of_node? hkey' hnode', hreordered.inputAt] at hslot'
    simp only [Node.input, List.getElem?_eq_getElem hindex, List.getElem?_eq_getElem hindex',
      Option.getD_some] at hslot hslot'
    exact hslot.slotTwin hslot' (h.find?_eq h' hreordered.declarations)

theorem Reordered.exists_compile (h : Reordered ρ d d')
    (hcompile : ∃ graph, d.compile skeleton clips settings = .ok graph) :
    ∃ graph, d'.compile skeleton clips settings = .ok graph := by
  obtain ⟨graph, hgraph⟩ := hcompile
  have hvalid := (builds_of_compile hgraph).1
  exact (h.valid hvalid).exists_compile skeleton settings

/-- The order in which the nodes of a description are listed does not matter: it is compiled in any order or in none,
    and whatever calls that assign or declare variables of a name and evaluate or update the graphs are made on both,
    the same is seen, answers and failures, frames, output poses and palettes. -/
theorem compile_reorder (d : Description α) (order : Equiv.Perm (Fin d.nodes.length)) (clips : ClipLibrary α)
    (skeleton : Asset (Skeleton α)) (settings : Settings α) :
    ((∃ graph, d.compile skeleton clips settings = .ok graph) ↔
      ∃ twin, (d.reorder order).compile skeleton clips settings = .ok twin) ∧
    ∀ graph twin, d.compile skeleton clips settings = .ok graph →
      (d.reorder order).compile skeleton clips settings = .ok twin →
      ∀ calls : List (Call α), (∀ call ∈ calls, call.Plays) → graph.observations calls = twin.observations calls := by
  have hreordered := d.reordered_reorder order
  refine ⟨⟨hreordered.exists_compile, hreordered.symm.exists_compile⟩, ?_⟩
  intro graph twin hgraph htwin calls hplays
  obtain ⟨hvalid, keys, hbuilds⟩ := builds_of_compile hgraph
  obtain ⟨-, keys', hbuilds'⟩ := builds_of_compile htwin
  have htwins := hbuilds.twins hbuilds' hvalid hreordered
  exact htwins.observations hbuilds.reached.reached.wellFormed hbuilds'.reached.reached.wellFormed hplays

end Twins

/-- The clip sampler of the stride can also be listed before the blend. -/
example : (stride.reorder Fin.revPerm).nodes =
    [⟨.clipSampler, [some (.variable "clip"), some (.float 1), some (.variable "looping")]⟩,
      ⟨.blend, [some (.node 0), some (.node 0), some (.variable "weight")]⟩] := by
  decide

theorem compile_reorder_stride :
    ∃ graph twin, stride.compile oneBone library .default = .ok graph ∧
      (stride.reorder Fin.revPerm).compile oneBone library .default = .ok twin ∧
      graph.observations [.setVariable "weight" (.float 0), .update 1, .update 1] =
        twin.observations [.setVariable "weight" (.float 0), .update 1, .update 1] := by
  obtain ⟨hiff, hobservations⟩ := stride.compile_reorder Fin.revPerm library oneBone .default
  obtain ⟨graph, hgraph⟩ := valid_stride.exists_compile oneBone .default
  obtain ⟨twin, htwin⟩ := hiff.1 ⟨graph, hgraph⟩
  exact ⟨graph, twin, hgraph, htwin, hobservations graph twin hgraph htwin _ (by simp [Call.Plays])⟩

end Description
end Armature
