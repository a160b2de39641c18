import Armature.Description.Basic
import Armature.Json.Fields
import Armature.Json.Printer
import Armature.Json.Reader

/-!
The JSON form of graph descriptions. The readers are given how numerals are read as floats.
-/

namespace Armature

/-- Reads the name of an operator: a case to which nothing belongs. -/
def readOperator? {β : Type} (ofName? : String → Option β) (v : Json) : Option β :=
  match v.case? with
  | some (name, none) | some (name, some .null) => ofName? name
  | _ => none

namespace NodeKind

/-- The kinds of nodes that are not operators, by name. -/
def ofName? : String → Option NodeKind
  | "ClipSampler" => some clipSampler
  | "Blend" => some blend
  | "AdditiveBlend" => some additiveBlend
  | "CalculateAdditive" => some calculateAdditive
  | "SelectPoseByBool" => some selectPose
  | _ => none

def toJson : NodeKind → Json
  | clipSampler => .ofString "ClipSampler"
  | blend => .ofString "Blend"
  | additiveBlend => .ofString "AdditiveBlend"
  | calculateAdditive => .ofString "CalculateAdditive"
  | selectPose => .ofString "SelectPoseByBool"
  | bool op => .ofMembers [("Bool", .ofString op.name)]
  | float op => .ofMembers [("Float", .ofString op.name)]

def ofJson? (v : Json) : Option NodeKind :=
  match v.case? with
  | some ("Bool", some op) => (readOperator? BoolOp.ofName? op).map bool
  | some ("Float", some op) => (readOperator? FloatOp.ofName? op).map float
  | some (name, none) | some (name, some .null) => ofName? name
  | _ => none

end NodeKind

def ValueDescription.toJson : ValueDescription Binary32 → Json
  | .bool b => .ofMembers [("Bool", .bool b)]
  | .float x => .ofMembers [("Float", .ofFloat x)]
  | .animation clip => .ofMembers [("Animation", (clip.map Json.ofString).getD .null)]

def ValueDescription.ofJson? (read : FloatReader) (v : Json) : Option (ValueDescription Binary32) :=
  match v.case? with
  | some ("Bool", some b) => b.asBool?.map .bool
  | some ("Float", some x) => (x.asFloatBy? read).map .float
  | some ("Animation", some clip) => (clip.orNull? Json.asString?).map .animation
  | _ => none

def VariableDescription.toJson (v : VariableDescription Binary32) : Json :=
  .ofMembers [("name", .ofString v.name), ("value", v.value.toJson)]

def VariableDescription.ofJson? (read : FloatReader) (v : Json) : Option (VariableDescription Binary32) := do
  match ← v.fields? ["name", "value"] with
  | [name, value] =>
    return {
      name := ← Json.required Json.asString? name
      value := ← Json.required (ValueDescription.ofJson? read) value }
  | _ => none

def InputDescription.toJson : InputDescription Binary32 → Json
  | .node place => .ofMembers [("Node", .ofNat place)]
  | .variable name => .ofMembers [("Variable", .ofString name)]
  | .bool b => .ofMembers [("Bool", .bool b)]
  | .float x => .ofMembers [("Float", .ofFloat x)]

def InputDescription.ofJson? (read : FloatReader) (v : Json) : Option (InputDescription Binary32) :=
  match v.case? with
  | some ("Node", some place) => place.asWord?.map .node
  | some ("Variable", some name) => name.asString?.map .variable
  | some ("Bool", some b) => b.asBool?.map .bool
  | some ("Float", some x) => (x.asFloatBy? read).map .float
  | _ => none

def NodeDescription.toJson (node : NodeDescription Binary32) : Json :=
  .ofMembers [
    ("kind", node.kind.toJson),
    ("inputs", .array (node.inputs.map fun input =>
      (input.map InputDescription.toJson).getD .null))]

def NodeDescription.ofJson? (read : FloatReader) (v : Json) : Option (NodeDescription Binary32) := do
  match ← v.fields? ["kind", "inputs"] with
  | [kind, inputs] =>
    return {
      kind := ← Json.required NodeKind.ofJson? kind
      inputs := ← Json.withDefault (Json.asList? (Json.orNull? (InputDescription.ofJson? read))) [] inputs }
  | _ => none

namespace Description

def toJson (d : Description Binary32) : Json :=
  .ofMembers [
    ("variables", .array (d.declarations.map VariableDescription.toJson)),
    ("nodes", .array (d.nodes.map NodeDescription.toJson)),
    ("output", (d.output.map Json.ofNat).getD .null)]

/-- Reads a description. What is not there is empty. -/
def ofJson? (read : FloatReader) (v : Json) : Option (Description Binary32) := do
  match ← v.fields? ["variables", "nodes", "output"] with
  | [declarations, nodes, output] =>
    return {
      declarations := ← Json.withDefault (Json.asList? (VariableDescription.ofJson? read)) [] declarations
      nodes := ← Json.withDefault (Json.asList? (NodeDescription.ofJson? read)) [] nodes
      output := ← Json.withDefault (Json.orNull? Json.asWord?) none output }
  | _ => none

/-- The text of a description. -/
def toText (d : Description Binary32) : String := d.toJson.toPrettyText

/-- The description that a text writes, given how numerals are read as floats. -/
def ofTextBy (read : FloatReader) (text : String) : Except Error (Description Binary32) :=
  match (Json.parse? text).bind (ofJson? read) with
  | some d => .ok d
  | none => .error .malformedText

/-- The description that a text writes. -/
def ofText (text : String) : Except Error (Description Binary32) := ofTextBy Decimal.toBinary32? text

end Description
end Armature
