import Armature.Description.Basic
import Armature.Proofs.Command
import Mathlib.Data.List.Duplicate
import Mathlib.Logic.Function.Basic

/-!
# Valid descriptions, and the graphs that they describe

When a description is valid (`Description.Valid`), what is wrong with one that is not (`Description.Defect`), and which
graph a description describes (`Description.Builds`): a node for every place, with every input bound as it is described.
The last is said of a part of the inputs, so that it can also be said of a graph that is still being built.
-/

namespace Armature

variable {α : Type}

namespace Graph

/-- What an input is bound to, by the place of its node in a list of keys and its index. -/
def slotAt (graph : Graph α) (keys : List NodeKey) (site : Nat × Nat) : Slot :=
  match (keys[site.1]?).bind graph.node? with
  | some node => node.input site.2
  | none => .unbound

end Graph

/-- A description describes a value: a truth value or a number is the value itself, a name is that of a clip of the
    library, and no name stands for no clip. -/
inductive ValueDescription.Describes (clips : ClipLibrary α) : ValueDescription α → Value α → Prop
  | bool (b : Bool) : Describes clips (.bool b) (.bool b)
  | float (x : α) : Describes clips (.float x) (.float x)
  | noClip : Describes clips (.animation none) (.animation none)
  | clip {name : String} {clip : Asset (Clip α)} (h : clips[name]? = some clip) :
      Describes clips (.animation (some name)) (.animation (some clip))

namespace Description

/-- The names of the declared variables. -/
def names (d : Description α) : List String := d.declarations.map (·.name)

/-- What is described of an input, by the place of its node and its index; none if it is to be unbound. -/
def inputAt (d : Description α) (site : Nat × Nat) : Option (InputDescription α) :=
  ((d.nodes[site.1]?).bind fun node => node.inputs[site.2]?).join

/-- Some input of the node at a place is the node at another place. -/
def Uses (d : Description α) (place child : Nat) : Prop :=
  ∃ node, d.nodes[place]? = some node ∧ some (.node child) ∈ node.inputs

/-- A description that describes a graph. -/
structure Valid (d : Description α) (clips : ClipLibrary α) : Prop where
  names : d.names.Nodup
  clips : ∀ v ∈ d.declarations, ∀ name, v.value = .animation (some name) → name ∈ clips
  arity : ∀ node ∈ d.nodes, node.inputs.length ≤ node.kind.arity
  children : ∀ node ∈ d.nodes, ∀ child, some (.node child) ∈ node.inputs → child < d.nodes.length
  output : ∀ place, d.output = some place → place < d.nodes.length
  variableNames : ∀ node ∈ d.nodes, ∀ name, some (.variable name) ∈ node.inputs → name ∈ d.names
  acyclic : ∀ place, ¬ Relation.TransGen d.Uses place place

/-- An error says what is wrong with a description. -/
inductive Defect (d : Description α) (clips : ClipLibrary α) : Error → Prop
  | unknownClip {v : VariableDescription α} {name : String} (hv : v ∈ d.declarations)
      (hvalue : v.value = .animation (some name)) (h : name ∉ clips) : Defect d clips (.unknownClip name)
  | duplicateVariable {name : String} (h : List.Duplicate name d.names) : Defect d clips (.duplicateVariable name)
  | inputOutOfRange {node : NodeDescription α} (hnode : node ∈ d.nodes) (h : node.kind.arity < node.inputs.length) :
      Defect d clips (.inputOutOfRange (node.inputs.length - 1) node.kind.arity)
  | missingInput {place index child : Nat} (hinput : d.inputAt (place, index) = some (.node child))
      (h : d.nodes.length ≤ child) : Defect d clips (.missingInput place index child)
  | unknownVariable {site : Nat × Nat} {name : String} (hinput : d.inputAt site = some (.variable name))
      (h : name ∉ d.names) : Defect d clips (.unknownVariable name)
  | cycle {place : Nat} (h : Relation.TransGen d.Uses place place) : Defect d clips .cycle
  | missingOutput {place : Nat} (hplace : d.output = some place) (h : d.nodes.length ≤ place) :
      Defect d clips (.missingOutput place)

/-- A slot is bound to what is described of its input. -/
inductive SlotBuilt (keys : List NodeKey) (table : VariableTable α) : Option (InputDescription α) → Slot → Prop
  | unbound : SlotBuilt keys table none .unbound
  | toNode {child : Nat} {key : NodeKey} (h : keys[child]? = some key) :
      SlotBuilt keys table (some (.node child)) (.node key)
  | toNamed {name : String} {key : VariableKey} (h : table.key? name = some key) :
      SlotBuilt keys table (some (.variable name)) (.variable key)
  | toBool {b : Bool} {key : VariableKey} (h : table.get? key = some ⟨none, .bool b⟩) :
      SlotBuilt keys table (some (.bool b)) (.variable key)
  | toFloat {x : α} {key : VariableKey} (h : table.get? key = some ⟨none, .float x⟩) :
      SlotBuilt keys table (some (.float x)) (.variable key)

/-- The variable that is declared under a name. -/
def Declares (clips : ClipLibrary α) (declarations : List (VariableDescription α)) (name : String)
    (v : Variable α) : Prop :=
  ∃ declaration ∈ declarations, declaration.name = name ∧
    ∃ value, declaration.value.Describes clips value ∧ v = ⟨some name, value⟩

/-- A graph is built from a description as far as some inputs: the nodes at all places, with the keys in a list, and
    nothing bound but these inputs; the declared variables, and an unnamed one for each of these inputs that is
    described by a value. -/
structure Builds [Scalar α] (d : Description α) (clips : ClipLibrary α) (skeleton : Asset (Skeleton α))
    (settings : Settings α) (keys : List NodeKey) (inputs : Nat × Nat → Option (InputDescription α))
    (output : Option NodeKey) (graph : Graph α) : Prop where
  reached : graph.ReachedBy (· ≠ .clearVariables)
  skeleton_eq : graph.skeleton = skeleton
  settings_eq : graph.settings = settings
  frame_eq : graph.frame = 0
  output_eq : graph.output = output
  length : keys.length = d.nodes.length
  nodup : keys.Nodup
  contains : ∀ key, graph.nodes.contains key ↔ key ∈ keys
  /-- Nothing has been computed by the nodes, which have the inputs of their kinds. -/
  node : ∀ (place : Nat) (key : NodeKey) (described : NodeDescription α), keys[place]? = some key →
    d.nodes[place]? = some described →
    ∃ slots, slots.length = described.kind.arity ∧
      graph.node? key = some { Node.ofKind described.kind with inputs := slots }
  slot : ∀ site, SlotBuilt keys graph.table (inputs site) (graph.slotAt keys site)
  index : graph.table.Exact
  named : ∀ name v, graph.table.find? name = some v ↔ Declares clips d.declarations name v
  /-- An unnamed variable drives one input and no other, which is described by its value then. -/
  unnamed : ∀ key v, graph.table.get? key = some v → v.name = none →
    ∃ site, ∀ other, graph.slotAt keys other = .variable key ↔ other = site

end Description

/-! ## Values -/

namespace ValueDescription

variable {clips : ClipLibrary α} {description : ValueDescription α} {value other : Value α}

/-- The value of a description is found exactly if there is one. -/
theorem resolve_eq_ok_iff : description.resolve clips = .ok value ↔ description.Describes clips value := by
  constructor
  · intro h
    cases description with
    | bool b => exact Except.ok.inj h ▸ .bool b
    | float x => exact Except.ok.inj h ▸ .float x
    | animation name? =>
      cases name? with
      | none => exact Except.ok.inj h ▸ .noClip
      | some name =>
        simp only [resolve] at h
        cases hclip : clips[name]? with
        | none =>
          rw [hclip] at h
          cases h
        | some clip =>
          rw [hclip] at h
          exact Except.ok.inj h ▸ .clip hclip
  · intro h
    cases h with
    | clip h => simp only [resolve, h]
    | _ => rfl

theorem Describes.unique (h : description.Describes clips value) (hother : description.Describes clips other) :
    value = other := by
  rw [← resolve_eq_ok_iff] at h hother
  exact Except.ok.inj (h.symm.trans hother)

end ValueDescription

/-! ## Descriptions -/

namespace Description
section Description

variable {d : Description α} {clips : ClipLibrary α} {place index : Nat}

theorem inputAt_eq_some_iff {input : InputDescription α} :
    d.inputAt (place, index) = some input ↔
      ∃ node, d.nodes[place]? = some node ∧ node.inputs[index]? = some (some input) := by
  simp [inputAt, Option.join_eq_some_iff, Option.bind_eq_some_iff]

theorem uses_iff {child : Nat} : d.Uses place child ↔ ∃ index, d.inputAt (place, index) = some (.node child) := by
  simp only [inputAt_eq_some_iff, Uses, List.mem_iff_getElem?]
  exact ⟨fun ⟨node, hnode, index, h⟩ => ⟨index, node, hnode, h⟩, fun ⟨index, node, hnode, h⟩ => ⟨node, hnode, index, h⟩⟩

theorem exists_mem_of_inputAt {site : Nat × Nat} {input : InputDescription α} (h : d.inputAt site = some input) :
    ∃ node ∈ d.nodes, some input ∈ node.inputs := by
  obtain ⟨node, hnode, hinput⟩ := inputAt_eq_some_iff.1 h
  exact ⟨node, List.mem_of_getElem? hnode, List.mem_of_getElem? hinput⟩

theorem exists_inputAt_of_mem {node : NodeDescription α} {input : InputDescription α} (hnode : node ∈ d.nodes)
    (hinput : some input ∈ node.inputs) : ∃ site, d.inputAt site = some input := by
  obtain ⟨place, hplace⟩ := List.mem_iff_getElem?.1 hnode
  obtain ⟨index, hindex⟩ := List.mem_iff_getElem?.1 hinput
  exact ⟨(place, index), inputAt_eq_some_iff.2 ⟨node, hplace, hindex⟩⟩

/-- A valid description has no defect. -/
theorem Valid.not_defect (h : d.Valid clips) (e : Error) : ¬ d.Defect clips e := by
  intro hdefect
  cases hdefect with
  | unknownClip hv hvalue hclip => exact hclip (h.clips _ hv _ hvalue)
  | duplicateVariable hname => exact hname.not_nodup h.names
  | inputOutOfRange hnode harity => exact absurd (h.arity _ hnode) (by omega)
  | missingInput hinput hchild =>
    obtain ⟨node, hnode, hmem⟩ := exists_mem_of_inputAt hinput
    exact absurd (h.children node hnode _ hmem) (by omega)
  | unknownVariable hinput hname =>
    obtain ⟨node, hnode, hmem⟩ := exists_mem_of_inputAt hinput
    exact hname (h.variableNames node hnode _ hmem)
  | cycle hcycle => exact h.acyclic _ hcycle
  | missingOutput hplace hlength => exact absurd (h.output _ hplace) (by omega)

end Description
end Description
end Armature
