import Armature.Json.Basic

/-!
Writing JSON values, without any blanks or with one item to a line.

In strings only quotes, backslashes and control characters are escaped.
-/

namespace Armature.Json

/-- The text of one character of a string. -/
def renderChar (c : Char) : List Char :=
  match c with
  | '"' => ['\\', '"']
  | '\\' => ['\\', '\\']
  | '\x08' => ['\\', 'b']
  | '\t' => ['\\', 't']
  | '\n' => ['\\', 'n']
  | '\x0c' => ['\\', 'f']
  | '\r' => ['\\', 'r']
  | c =>
    if c < ' ' then
      ['\\', 'u', '0', '0', Nat.digitChar (c.toNat / 16), Nat.digitChar (c.toNat % 16)]
    else [c]

/-- The text of a string. A string that is no text is written as half of a surrogate pair. -/
def renderString : Option String → List Char
  | some s => '"' :: s.toList.flatMap renderChar ++ ['"']
  | none => ['"', '\\', 'u', 'd', '8', '0', '0', '"']

def renderBool : Bool → List Char
  | true => ['t', 'r', 'u', 'e']
  | false => ['f', 'a', 'l', 's', 'e']

/-- A new line, indented by two blanks for each open array and object. -/
def newline (depth : Nat) : List Char :=
  '\n' :: List.replicate (2 * depth) ' '

mutual

/-- The text of a value without any blanks. -/
def compact : Json → List Char
  | .null => ['n', 'u', 'l', 'l']
  | .bool b => renderBool b
  | .number d => d.render
  | .string s => renderString s
  | .array items => '[' :: compactItems items ++ [']']
  | .object members => '{' :: compactMembers members ++ ['}']

/-- The text of the items of an array without any blanks. -/
def compactItems : List Json → List Char
  | [] => []
  | [v] => compact v
  | v :: rest => compact v ++ ',' :: compactItems rest

/-- The text of the members of an object without any blanks. -/
def compactMembers : List (Option String × Json) → List Char
  | [] => []
  | [(key, v)] => renderString key ++ ':' :: compact v
  | (key, v) :: rest => renderString key ++ ':' :: compact v ++ ',' :: compactMembers rest

end

mutual

/-- The text of a value inside `depth` open arrays and objects, with one item to a line. -/
def pretty (depth : Nat) : Json → List Char
  | .null => ['n', 'u', 'l', 'l']
  | .bool b => renderBool b
  | .number d => d.render
  | .string s => renderString s
  | .array [] => ['[', ']']
  | .array items => '[' :: prettyItems (depth + 1) items ++ newline depth ++ [']']
  | .object [] => ['{', '}']
  | .object members => '{' :: prettyMembers (depth + 1) members ++ newline depth ++ ['}']

/-- The text of the items of an array, each on a line of its own. -/
def prettyItems (depth : Nat) : List Json → List Char
  | [] => []
  | [v] => newline depth ++ pretty depth v
  | v :: rest => newline depth ++ pretty depth v ++ ',' :: prettyItems depth rest

/-- The text of the members of an object, each on a line of its own. -/
def prettyMembers (depth : Nat) : List (Option String × Json) → List Char
  | [] => []
  | [(key, v)] => newline depth ++ renderString key ++ ':' :: ' ' :: pretty depth v
  | (key, v) :: rest =>
    newline depth ++ renderString key ++ ':' :: ' ' :: pretty depth v ++ ',' :: prettyMembers depth rest

end

/-- The text of a value without any blanks. -/
def toCompactText (v : Json) : String := String.ofList (compact v)

/-- The text of a value with one item to a line. -/
def toPrettyText (v : Json) : String := String.ofList (pretty 0 v)

end Armature.Json
