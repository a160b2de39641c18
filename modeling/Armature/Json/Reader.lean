import Armature.Json.Token

/-!
Reading JSON values from tokens.

The reader goes through the tokens once. What it has seen so far of the arrays and objects around the
current place is kept on a stack, so that reading is a fold over the tokens.
-/

namespace Armature.Json

/-- An array or object that is still open, with what came before the value that is being read. The last
    one comes first. -/
inductive OpenValue where
  | item (before : List Json)
  | member (before : List (Option String × Json)) (key : Option String)

/-- What the reader has seen, and what may follow. The stack holds the open arrays and objects, the
    innermost first. -/
inductive ReadState where
  /-- A value has to follow. -/
  | value (stack : List OpenValue)
  /-- An array has been opened: its first item or its end has to follow. -/
  | firstItem (stack : List OpenValue)
  /-- An object has been opened: its first key or its end has to follow. -/
  | firstKey (stack : List OpenValue)
  /-- Another key of an object has to follow. -/
  | nextKey (before : List (Option String × Json)) (stack : List OpenValue)
  /-- A colon has to follow the key of a member. -/
  | colon (before : List (Option String × Json)) (key : Option String) (stack : List OpenValue)
  /-- A value is complete: the innermost open array or object goes on or ends. -/
  | complete (v : Json) (stack : List OpenValue)

namespace ReadState

/-- Starts a value with the given token. -/
def start? (stack : List OpenValue) : Token → Option ReadState
  | .null => some (complete .null stack)
  | .bool b => some (complete (.bool b) stack)
  | .number d => some (complete (.number d) stack)
  | .string s => some (complete (.string s) stack)
  | .openArray => some (firstItem stack)
  | .openObject => some (firstKey stack)
  | _ => none

/-- Takes one token into account, if it may follow. -/
def step? : ReadState → Token → Option ReadState
  | value stack, token => start? stack token
  | firstItem stack, .closeArray => some (complete (.array []) stack)
  | firstItem stack, token => start? (.item [] :: stack) token
  | firstKey stack, .closeObject => some (complete (.object []) stack)
  | firstKey stack, .string key => some (colon [] key stack)
  | nextKey before stack, .string key => some (colon before key stack)
  | colon before key stack, .colon => some (value (.member before key :: stack))
  | complete v (.item before :: stack), .comma => some (value (.item (v :: before) :: stack))
  | complete v (.item before :: stack), .closeArray =>
    some (complete (.array (v :: before).reverse) stack)
  | complete v (.member before key :: stack), .comma => some (nextKey ((key, v) :: before) stack)
  | complete v (.member before key :: stack), .closeObject =>
    some (complete (.object ((key, v) :: before).reverse) stack)
  | _, _ => none

end ReadState

/-- The value that the tokens write, if they write exactly one. -/
def ofTokens? (tokens : List Token) : Option Json :=
  match tokens.foldlM ReadState.step? (.value []) with
  | some (.complete v []) => some v
  | _ => none

/-- The value that a text writes. -/
def parse? (text : String) : Option Json :=
  (Token.scan text.toList).bind ofTokens?

end Armature.Json
