import Armature.Description.Json
import Armature.Proofs.JsonText

/-!
# Descriptions read back

A description is read back from its text (`Description.ofText_toText`), whatever its names are and however its inputs are
mixed, if its places fit a machine word and its floats are read back from their own numerals. Since every value is read
back from its text, what is left are the shapes: a choice is told from the others by its name, and a list is read back
if its items are. How numerals are read as floats does not matter for the shapes, so they are looked at for any such reader
(`Description.ofJson?_toJson`).
-/

namespace Armature

namespace Binary32

/-- A float is read back from the numeral that it is written as. -/
def ReadsBack (x : Binary32) : Prop := (Json.ofFloat x).asFloat? = some x

instance : DecidablePred ReadsBack := fun x => decEq (Json.ofFloat x).asFloat? (some x)

/-- A float is written as something that is not read as a float. -/
def Unreadable (x : Binary32) : Prop := (Json.ofFloat x).asFloat? = none

end Binary32

/-! ## Floats and places -/

def ValueDescription.float? {α : Type} : ValueDescription α → Option α
  | .float x => some x
  | _ => none

/-- Changes the float, if there is one. -/
def ValueDescription.map {α β : Type} (f : α → β) : ValueDescription α → ValueDescription β
  | .bool b => .bool b
  | .float x => .float (f x)
  | .animation clip => .animation clip

def VariableDescription.map {α β : Type} (f : α → β) (v : VariableDescription α) : VariableDescription β :=
  ⟨v.name, v.value.map f⟩

def InputDescription.float? {α : Type} : InputDescription α → Option α
  | .float x => some x
  | _ => none

def InputDescription.map {α β : Type} (f : α → β) : InputDescription α → InputDescription β
  | .node place => .node place
  | .variable name => .variable name
  | .bool b => .bool b
  | .float x => .float (f x)

def InputDescription.place? {α : Type} : InputDescription α → Option Nat
  | .node place => some place
  | _ => none

namespace NodeDescription

variable {α β : Type}

def map (f : α → β) (node : NodeDescription α) : NodeDescription β := ⟨node.kind, node.inputs.map (·.map (·.map f))⟩

/-- The inputs that are given. -/
def given (node : NodeDescription α) : List (InputDescription α) := node.inputs.filterMap id

def floats (node : NodeDescription α) : List α := node.given.filterMap InputDescription.float?

def places (node : NodeDescription α) : List Nat := node.given.filterMap InputDescription.place?

end NodeDescription

namespace Description

variable {α β : Type}

/-- Changes all floats. -/
def map (f : α → β) (d : Description α) : Description β :=
  ⟨d.declarations.map (·.map f), d.nodes.map (·.map f), d.output⟩

/-- The floats of a description, of its variables and of its inputs. -/
def floats (d : Description α) : List α :=
  d.declarations.filterMap (·.value.float?) ++ d.nodes.flatMap (·.floats)

/-- The places of nodes that a description refers to. -/
def places (d : Description α) : List Nat := d.nodes.flatMap (·.places) ++ d.output.toList

end Description

section

variable {α : Type} {f : α → α}

theorem ValueDescription.map_eq_self_iff {v : ValueDescription α} : v.map f = v ↔ ∀ x ∈ v.float?, f x = x := by
  cases v <;> simp [map, float?]

theorem VariableDescription.map_eq_self_iff {v : VariableDescription α} :
    v.map f = v ↔ ∀ x ∈ v.value.float?, f x = x := by
  rw [← ValueDescription.map_eq_self_iff]
  exact ⟨congrArg VariableDescription.value, congrArg (VariableDescription.mk v.name)⟩

theorem InputDescription.map_eq_self_iff {input : InputDescription α} :
    input.map f = input ↔ ∀ x ∈ input.float?, f x = x := by
  cases input <;> simp [map, float?]

theorem map_eq_self_iff_forall {β : Type} {g : β → β} {xs : List β} : xs.map g = xs ↔ ∀ x ∈ xs, g x = x := by
  have h : xs.map g = xs.map id ↔ ∀ x ∈ xs, g x = id x := List.map_inj_left
  rwa [xs.map_id] at h

theorem NodeDescription.map_eq_self_iff {node : NodeDescription α} :
    node.map f = node ↔ ∀ x ∈ node.floats, f x = x := by
  have hinputs : node.map f = node ↔ node.inputs.map (·.map (·.map f)) = node.inputs :=
    ⟨congrArg NodeDescription.inputs, congrArg (NodeDescription.mk node.kind)⟩
  rw [hinputs, map_eq_self_iff_forall]
  simp only [floats, given, List.forall_mem_filterMap, Option.forall, Option.map_none, Option.map_some, id_eq]
  simp [InputDescription.map_eq_self_iff]

/-- Nothing is changed if no float is. -/
theorem Description.map_eq_self_iff {d : Description α} : d.map f = d ↔ ∀ x ∈ d.floats, f x = x := by
  have hparts : d.map f = d ↔ d.declarations.map (·.map f) = d.declarations ∧ d.nodes.map (·.map f) = d.nodes := by
    obtain ⟨declarations, nodes, output⟩ := d
    simp [map]
  rw [hparts, map_eq_self_iff_forall, map_eq_self_iff_forall]
  simp only [floats, List.forall_mem_append, List.forall_mem_filterMap, List.forall_mem_flatMap,
    VariableDescription.map_eq_self_iff, NodeDescription.map_eq_self_iff]
  rfl

theorem Description.map_id (d : Description α) : d.map id = d := map_eq_self_iff.2 fun _ _ => rfl

end

/-! ## Shapes -/

namespace Json

variable {β : Type} {read? : Json → Option β} {write : β → Json} {f : β → β}

theorem mapM_map {xs : List β} (h : ∀ x ∈ xs, read? (write x) = some (f x)) :
    (xs.map write).mapM read? = some (xs.map f) := by
  induction xs with
  | nil => rfl
  | cons x xs ih =>
    obtain ⟨hx, hxs⟩ := List.forall_mem_cons.1 h
    simp [hx, ih hxs]

theorem asList?_array {xs : List β} (h : ∀ x ∈ xs, read? (write x) = some (f x)) :
    (Json.array (xs.map write)).asList? read? = some (xs.map f) := mapM_map h

theorem asList?_eq_none {xs : List β} {x : β} (hmem : x ∈ xs) (h : read? (write x) = none) :
    (Json.array (xs.map write)).asList? read? = none := by
  change (xs.map write).mapM read? = none
  induction xs with
  | nil => cases hmem
  | cons y ys ih =>
    rcases List.mem_cons.1 hmem with rfl | hmem
    · simp [h]
    · cases hy : read? (write y) with
      | none => simp [hy]
      | some => simp [ih hmem]

/-- What is written as null is nothing, if nothing else is. -/
def ofOption (write : β → Json) (x : Option β) : Json := (x.map write).getD .null

theorem orNull?_ofOption {x : Option β} (hnull : ∀ y ∈ x, write y ≠ .null)
    (h : ∀ y ∈ x, read? (write y) = some (f y)) : (ofOption write x).orNull? read? = some (x.map f) := by
  cases x with
  | none => rfl
  | some y =>
    change (write y).orNull? read? = some (some (f y))
    unfold orNull?
    split
    · next heq => exact absurd heq (hnull y rfl)
    · rw [h y rfl]
      rfl

theorem orNull?_eq_none {v : Json} (hnull : v ≠ .null) (h : read? v = none) : v.orNull? read? = none := by
  unfold orNull?
  split
  · exact absurd rfl hnull
  · rw [h]
    rfl

@[simp] theorem asString?_ofString (s : String) : (ofString s).asString? = some s := rfl

theorem asWord?_ofNat {n : Nat} (h : n < UInt64.size) : (ofNat n).asWord? = some n := by
  simp [ofNat, asWord?, Decimal.toNat?, Decimal.ofNat, Decimal.isInteger, h]

end Json

/-! ## Parts of a description -/

theorem readOperator?_ofString {β : Type} (ofName? : String → Option β) (name : String) :
    readOperator? ofName? (.ofString name) = ofName? name := rfl

theorem NodeKind.ofJson?_toJson (kind : NodeKind) : ofJson? kind.toJson = some kind := by
  cases kind with
  | bool op =>
    change (readOperator? BoolOp.ofName? (.ofString op.name)).map NodeKind.bool = _
    simp [readOperator?_ofString]
  | float op =>
    change (readOperator? FloatOp.ofName? (.ofString op.name)).map NodeKind.float = _
    simp [readOperator?_ofString]
  | _ => rfl

section

variable {read : FloatReader} {f : Binary32 → Binary32}

theorem ValueDescription.ofJson?_toJson {v : ValueDescription Binary32}
    (h : ∀ x ∈ v.float?, (Json.ofFloat x).asFloatBy? read = some (f x)) : ofJson? read v.toJson = some (v.map f) := by
  cases v with
  | bool b => rfl
  | float x =>
    change ((Json.ofFloat x).asFloatBy? read).map ValueDescription.float = _
    rw [h x rfl]
    rfl
  | animation clip => cases clip <;> rfl

theorem ValueDescription.ofJson?_toJson_eq_none {v : ValueDescription Binary32} {x : Binary32}
    (hmem : x ∈ v.float?) (h : (Json.ofFloat x).asFloatBy? read = none) : ofJson? read v.toJson = none := by
  cases v with
  | float y =>
    obtain rfl := Option.some.inj hmem
    change ((Json.ofFloat y).asFloatBy? read).map ValueDescription.float = none
    rw [h]
    rfl
  | _ => cases hmem

/-- A declared variable is read if its value is. -/
theorem VariableDescription.ofJson?_toJson (v : VariableDescription Binary32) :
    ofJson? read v.toJson = (ValueDescription.ofJson? read v.value.toJson).map (⟨v.name, ·⟩) := by
  have hfields : v.toJson.fields? ["name", "value"] = some [some (.ofString v.name), some v.value.toJson] := rfl
  simp only [ofJson?, hfields, Json.required, Option.bind_eq_bind, Option.bind_some, Json.asString?_ofString]
  cases ValueDescription.ofJson? read v.value.toJson <;> rfl

theorem InputDescription.ofJson?_toJson {input : InputDescription Binary32}
    (hplace : ∀ n ∈ input.place?, n < UInt64.size)
    (hfloat : ∀ x ∈ input.float?, (Json.ofFloat x).asFloatBy? read = some (f x)) :
    ofJson? read input.toJson = some (input.map f) := by
  cases input with
  | node place =>
    change (Json.ofNat place).asWord?.map InputDescription.node = _
    rw [Json.asWord?_ofNat (hplace place rfl)]
    rfl
  | «variable» name => rfl
  | bool b => rfl
  | float x =>
    change ((Json.ofFloat x).asFloatBy? read).map InputDescription.float = _
    rw [hfloat x rfl]
    rfl

theorem InputDescription.ofJson?_toJson_eq_none {input : InputDescription Binary32} {x : Binary32}
    (hmem : x ∈ input.float?) (h : (Json.ofFloat x).asFloatBy? read = none) : ofJson? read input.toJson = none := by
  cases input with
  | float y =>
    obtain rfl := Option.some.inj hmem
    change ((Json.ofFloat y).asFloatBy? read).map InputDescription.float = none
    rw [h]
    rfl
  | _ => cases hmem

theorem InputDescription.toJson_ne_null (input : InputDescription Binary32) : input.toJson ≠ .null := by
  cases input <;> exact Json.noConfusion

/-- A node is read if its inputs are. -/
theorem NodeDescription.ofJson?_toJson (node : NodeDescription Binary32) :
    ofJson? read node.toJson =
      ((Json.array (node.inputs.map (Json.ofOption InputDescription.toJson))).asList?
        (Json.orNull? (InputDescription.ofJson? read))).map (⟨node.kind, ·⟩) := by
  have hfields : node.toJson.fields? ["kind", "inputs"] =
      some [some node.kind.toJson, some (.array (node.inputs.map (Json.ofOption InputDescription.toJson)))] := rfl
  simp only [ofJson?, hfields, Json.required, Json.withDefault, Option.bind_eq_bind, Option.bind_some,
    NodeKind.ofJson?_toJson, Option.map_eq_bind]
  rfl

theorem NodeDescription.ofJson?_toJson_eq_some {node : NodeDescription Binary32}
    (hplaces : ∀ n ∈ node.places, n < UInt64.size)
    (hfloats : ∀ x ∈ node.floats, (Json.ofFloat x).asFloatBy? read = some (f x)) :
    ofJson? read node.toJson = some (node.map f) := by
  rw [ofJson?_toJson, Json.asList?_array]
  · rfl
  intro input hinput
  refine Json.orNull?_ofOption (fun given _ => given.toJson_ne_null) ?_
  rintro given rfl
  have hgiven : given ∈ node.given := List.mem_filterMap.2 ⟨_, hinput, rfl⟩
  exact InputDescription.ofJson?_toJson (fun n hn => hplaces n (List.mem_filterMap.2 ⟨given, hgiven, hn⟩))
    fun x hx => hfloats x (List.mem_filterMap.2 ⟨given, hgiven, hx⟩)

theorem NodeDescription.ofJson?_toJson_eq_none {node : NodeDescription Binary32} {x : Binary32}
    (hmem : x ∈ node.floats) (h : (Json.ofFloat x).asFloatBy? read = none) : ofJson? read node.toJson = none := by
  obtain ⟨given, hgiven, hx⟩ := List.mem_filterMap.1 hmem
  obtain ⟨input, hinput, rfl⟩ := List.mem_filterMap.1 hgiven
  rw [ofJson?_toJson, Json.asList?_eq_none hinput]
  · rfl
  · exact Json.orNull?_eq_none given.toJson_ne_null (InputDescription.ofJson?_toJson_eq_none hx h)

end

namespace Description

variable {read : FloatReader} {f : Binary32 → Binary32} {d : Description Binary32}

/-- A description is read if its variables, its nodes and its output are. -/
theorem ofJson?_toJson (d : Description Binary32) :
    ofJson? read d.toJson =
      ((Json.array (d.declarations.map VariableDescription.toJson)).asList? (VariableDescription.ofJson? read)).bind
        fun declarations =>
      ((Json.array (d.nodes.map NodeDescription.toJson)).asList? (NodeDescription.ofJson? read)).bind fun nodes =>
      ((Json.ofOption Json.ofNat d.output).orNull? Json.asWord?).map fun output => ⟨declarations, nodes, output⟩ := by
  have hfields : d.toJson.fields? ["variables", "nodes", "output"] =
      some [some (.array (d.declarations.map VariableDescription.toJson)),
        some (.array (d.nodes.map NodeDescription.toJson)), some (Json.ofOption Json.ofNat d.output)] := rfl
  simp only [ofJson?, hfields, Json.withDefault, Option.bind_eq_bind, Option.bind_some, Option.map_eq_bind]
  rfl

/-- Whatever is read for each of the floats is read in its place, and nothing else is changed. -/
theorem ofJson?_toJson_eq_some (hplaces : ∀ n ∈ d.places, n < UInt64.size)
    (hfloats : ∀ x ∈ d.floats, (Json.ofFloat x).asFloatBy? read = some (f x)) :
    ofJson? read d.toJson = some (d.map f) := by
  have houtput : (Json.ofOption Json.ofNat d.output).orNull? Json.asWord? = some (d.output.map id) :=
    Json.orNull?_ofOption (fun _ _ => Json.noConfusion)
      fun n hn => Json.asWord?_ofNat (hplaces n (List.mem_append_right _ (Option.mem_toList.2 hn)))
  rw [ofJson?_toJson, Json.asList?_array, Json.asList?_array, houtput, Option.map_id]
  · rfl
  · intro node hnode
    refine node.ofJson?_toJson_eq_some (fun n hn => hplaces n ?_) fun x hx => hfloats x ?_
    · exact List.mem_append_left _ (List.mem_flatMap.2 ⟨node, hnode, hn⟩)
    · exact List.mem_append_right _ (List.mem_flatMap.2 ⟨node, hnode, hx⟩)
  · intro v hv
    rw [VariableDescription.ofJson?_toJson, ValueDescription.ofJson?_toJson fun x hx => hfloats x ?_]
    · rfl
    · exact List.mem_append_left _ (List.mem_filterMap.2 ⟨v, hv, hx⟩)

theorem ofJson?_toJson_eq_none {x : Binary32} (hmem : x ∈ d.floats) (h : (Json.ofFloat x).asFloatBy? read = none) :
    ofJson? read d.toJson = none := by
  rw [ofJson?_toJson]
  rcases List.mem_append.1 hmem with hmem | hmem
  · obtain ⟨v, hv, hx⟩ := List.mem_filterMap.1 hmem
    rw [Json.asList?_eq_none hv, Option.bind_none]
    rw [VariableDescription.ofJson?_toJson, ValueDescription.ofJson?_toJson_eq_none hx h]
    rfl
  · obtain ⟨node, hnode, hx⟩ := List.mem_flatMap.1 hmem
    rw [Json.asList?_eq_none hnode (NodeDescription.ofJson?_toJson_eq_none hx h)]
    simp

/-- What is read from the text of a description, whatever is read for its floats. -/
theorem ofTextBy_toText (hplaces : ∀ n ∈ d.places, n < UInt64.size)
    (hfloats : ∀ x ∈ d.floats, (Json.ofFloat x).asFloatBy? read = some (f x)) :
    ofTextBy read d.toText = .ok (d.map f) := by
  rw [ofTextBy, toText, Json.parse?_toPrettyText, Option.bind_some, ofJson?_toJson_eq_some hplaces hfloats]

/-- A description is read back from its text. -/
theorem ofText_toText (d : Description Binary32) (hplaces : ∀ n ∈ d.places, n < UInt64.size)
    (hfloats : ∀ x ∈ d.floats, x.ReadsBack) : ofText d.toText = .ok d := by
  have hread : ∀ x ∈ d.floats, (Json.ofFloat x).asFloatBy? Decimal.toBinary32? = some (id x) := hfloats
  rw [ofText, ofTextBy_toText hplaces hread, map_id]

/-- A description with all kinds of names, floats, inputs and nodes. -/
def motley : Description Binary32 where
  declarations := [
    ⟨"", .float (.zero true)⟩, ⟨"a \"quoted\" \\ name", .animation (some "line\nfeed, nul \x00 and del \x7f")⟩,
    ⟨"höhe 高さ 𝄞", .float ⟨0x7f7fffff⟩⟩, ⟨"\ud7ff\ue000\uffff", .animation none⟩, ⟨"null", .bool true⟩]
  nodes := [
    ⟨.bool (.logic .xor), [none, some (.node (UInt64.size - 1)), some (.bool false)]⟩, ⟨.clipSampler, []⟩,
    ⟨.float .toRadians, [some (.float ⟨1⟩), some (.variable "Bool"), none, none]⟩, ⟨.additiveBlend, [some (.float 0.1)]⟩]
  output := some 0

theorem ofText_toText_motley :
    (∀ n ∈ motley.places, n < UInt64.size) ∧ (∀ x ∈ motley.floats, x.ReadsBack) ∧
      ofText motley.toText = .ok motley := by
  have hplaces : ∀ n ∈ motley.places, n < UInt64.size := by decide
  have hfloats : ∀ x ∈ motley.floats, x.ReadsBack := by decide +kernel
  exact ⟨hplaces, hfloats, ofText_toText motley hplaces hfloats⟩

end Description

end Armature
