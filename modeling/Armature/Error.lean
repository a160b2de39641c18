/-!
What can go wrong when graphs, variables and skeletons are put together.

Evaluation cannot fail; only editing, declaring, constructing and reading can.
-/

namespace Armature

/-- The types of graph variables. -/
inductive VariableType where
  | bool
  | float
  | animation
deriving DecidableEq

/-- The name of a type of variables. -/
def VariableType.name : VariableType → String
  | bool => "Bool"
  | float => "Float"
  | animation => "Animation"

/-- The causes of a failure. -/
inductive Error where
  /-- A key refers to no node of the graph. -/
  | unknownNode
  /-- A node has fewer inputs. -/
  | inputOutOfRange (index arity : Nat)
  /-- The node that an input was to be bound to depends on the node itself. -/
  | cycle
  /-- No variable has the name. -/
  | unknownVariable (name : String)
  /-- A key refers to no variable of the graph. -/
  | unknownVariableKey
  /-- The name of a variable is taken. -/
  | duplicateVariable (name : String)
  /-- A variable was given a value of another type. An unnamed variable has the empty name. -/
  | typeMismatch (name : String) (expected found : VariableType)
  /-- The table of a skeleton lists a bone that its tree does not have. -/
  | missingBone (name : String)
  /-- A description refers to a clip that was not supplied. -/
  | unknownClip (name : String)
  /-- An input in a description refers to a node that is not there. -/
  | missingInput (node input child : Nat)
  /-- The output of a description refers to a node that is not there. -/
  | missingOutput (node : Nat)
  /-- A text is not the JSON text of what was to be read. -/
  | malformedText
deriving DecidableEq

/-- The message for the author of the asset. -/
def Error.message : Error → String
  | unknownNode => "Unknown animation graph node"
  | inputOutOfRange index arity => s!"Input index {index} out of range (node arity: {arity})"
  | cycle => "Binding would create a cycle in the animation graph"
  | unknownVariable name => s!"Unknown graph variable: {name}"
  | unknownVariableKey => "Unknown graph variable"
  | duplicateVariable name => s!"Graph variable already declared: {name}"
  | typeMismatch name expected found =>
    "Variable '" ++ name ++ "' has type " ++ expected.name ++ ", got " ++ found.name
  | missingBone name =>
    "Bone '" ++ name ++ "' is listed in the bone table but missing from the hierarchy"
  | unknownClip name => s!"Unknown animation clip: {name}"
  | missingInput node input child =>
    s!"Invalid graph description: node {node} input {input} refers to missing node {child}"
  | missingOutput node =>
    s!"Invalid graph description: output refers to missing node {node}"
  | malformedText => "Malformed JSON text"

end Armature
