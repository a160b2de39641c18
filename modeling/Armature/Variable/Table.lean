import Armature.Arena
import Armature.Variable.Basic

/-!
Variable tables: an arena of variables, and an index of the named ones.
-/

namespace Armature

abbrev VariableKey := Key .variable

/-- Variables by key and, if they are named, by name. -/
structure VariableTable (α : Type) where
  /-- All variables, named and unnamed. -/
  entries : Arena .variable (Variable α)
  /-- The keys of the named variables. -/
  index : Std.ExtTreeMap String VariableKey

namespace VariableTable

variable {α : Type}

def empty : VariableTable α := ⟨.empty, ∅⟩

instance : Inhabited (VariableTable α) := ⟨empty⟩

def get? (table : VariableTable α) (key : VariableKey) : Option (Variable α) :=
  table.entries.get? key

def contains (table : VariableTable α) (key : VariableKey) : Bool := table.entries.contains key

def key? (table : VariableTable α) (name : String) : Option VariableKey := table.index[name]?

def find? (table : VariableTable α) (name : String) : Option (Variable α) :=
  (table.key? name).bind table.get?

def size (table : VariableTable α) : Nat := table.entries.size

/-- Adds a variable under the next key, and under its name if it has one. -/
def insert (table : VariableTable α) (v : Variable α) : VariableTable α where
  entries := table.entries.insert v
  index :=
    match v.name with
    | some name => table.index.insert name table.entries.nextKey
    | none => table.index

/-- Adds a variable under the next key, and the key under a name. -/
def insertNamed (table : VariableTable α) (name : String) (v : Variable α) : VariableTable α where
  entries := table.entries.insert v
  index := table.index.insert name table.entries.nextKey

/-- The key that the next variable gets. -/
def nextKey (table : VariableTable α) : VariableKey := table.entries.nextKey

/-- Declares a named variable. The name must not be taken. -/
def declare (table : VariableTable α) (name : String) (value : Value α) :
    Except Error (VariableKey × VariableTable α) :=
  if table.index.contains name then .error (.duplicateVariable name)
  else .ok (table.nextKey, table.insert ⟨some name, value⟩)

def addLocal (table : VariableTable α) (value : Value α) : VariableKey × VariableTable α :=
  (table.nextKey, table.insert ⟨none, value⟩)

def setKey (table : VariableTable α) (key : VariableKey) (value : Value α) :
    Except Error (VariableTable α) :=
  match table.get? key with
  | none => .error .unknownVariableKey
  | some v => do
    let v ← v.assign value
    return { table with entries := table.entries.modify key fun _ => v }

def set (table : VariableTable α) (name : String) (value : Value α) : Except Error (VariableTable α) :=
  match table.key? name with
  | none => .error (.unknownVariable name)
  | some key => table.setKey key value

/-- The named variables in the order of their names. There is no such list if a name leads to no variable. -/
def named? (table : VariableTable α) : Option (List (String × VariableKey × Variable α)) :=
  table.index.toList.mapM fun (name, key) => (table.get? key).map fun v => (name, key, v)

/-- The named variables in the order of their names. -/
def named (table : VariableTable α) : List (String × VariableKey × Variable α) :=
  table.named?.getD []

/-- Removes all variables. Their keys refer to nothing from then on. -/
def clear (table : VariableTable α) : VariableTable α := ⟨table.entries.clear, ∅⟩

/-- The table with copies of the named variables alone, if there is a list of them. -/
def copyNamed? (table : VariableTable α) : Option (VariableTable α) :=
  table.named?.map fun named => named.foldl (fun copy (name, _, v) => copy.insertNamed name v) empty

/-- The table with copies of the named variables alone. -/
def copyNamed (table : VariableTable α) : VariableTable α := table.copyNamed?.getD empty

/-- Brings a variable of another table in: the variable that is declared under its name, which must be there, or
    else a copy. -/
def adopt? (table : VariableTable α) (v : Variable α) : Option (VariableKey × VariableTable α) :=
  match v.name.bind table.key? with
  | some key => (table.get? key).map fun _ => (key, table)
  | none => some (table.nextKey, table.insert v)

/-! What an insertion does to the look-ups. -/

theorem get?_insert (table : VariableTable α) (v : Variable α) (key : VariableKey) :
    (table.insert v).get? key = if key = table.nextKey then some v else table.get? key :=
  Arena.get?_insert _ _ _

theorem key?_insert (table : VariableTable α) (v : Variable α) (name : String) :
    (table.insert v).key? name = if v.name = some name then some table.nextKey else table.key? name := by
  unfold key? insert nextKey
  cases v.name <;> grind

/-- A variable that is entered under the name that it has is inserted. -/
theorem insertNamed_eq_insert (table : VariableTable α) {name : String} {v : Variable α} (h : v.name = some name) :
    table.insertNamed name v = table.insert v := by
  simp [insertNamed, insert, h]

@[simp] theorem get?_clear (table : VariableTable α) (key : VariableKey) :
    table.clear.get? key = none :=
  Arena.get?_clear _ _

@[simp] theorem key?_clear (table : VariableTable α) (name : String) : table.clear.key? name = none := by
  simp [key?, clear]

end VariableTable
end Armature
