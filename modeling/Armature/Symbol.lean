/-!
Symbol tables, which number names so that equal names have equal numbers.
-/

namespace Armature

/-- The number of a name in a table. -/
structure Symbol where
  id : Nat
deriving DecidableEq

/-- The names that have been seen, in the order in which they came; each occurs once. -/
structure SymbolTable where
  names : List String
deriving Inhabited

namespace SymbolTable

def empty : SymbolTable := ⟨[]⟩

def find? (table : SymbolTable) (name : String) : Option Symbol :=
  (table.names.idxOf? name).map Symbol.mk

/-- The symbol of a name, which is seen from now on. -/
def intern (table : SymbolTable) (name : String) : Symbol × SymbolTable :=
  match table.find? name with
  | some symbol => (symbol, table)
  | none => (⟨table.names.length⟩, ⟨table.names ++ [name]⟩)

def name? (table : SymbolTable) (symbol : Symbol) : Option String := table.names[symbol.id]?

/-- The symbol of a name stands for the name. -/
@[simp] theorem name?_intern (table : SymbolTable) (name : String) :
    (table.intern name).2.name? (table.intern name).1 = some name := by
  unfold intern
  split
  · next symbol h =>
    obtain ⟨i, hi, heq⟩ := Option.map_eq_some_iff.1 h
    obtain ⟨hlt, hname, -⟩ := List.idxOf?_eq_some_iff.1 hi
    subst heq
    simp [name?, hlt, hname]
  · simp [name?]

/-- A name that has been given a symbol is found. -/
@[simp] theorem find?_intern (table : SymbolTable) (name : String) :
    (table.intern name).2.find? name = some (table.intern name).1 := by
  unfold intern
  split
  · next symbol h => exact h
  · next h =>
    simp only [find?, Option.map_eq_none_iff, List.idxOf?] at h
    simp [find?, List.idxOf?, List.findIdx?_append, h]

/-- A name keeps its symbol. -/
theorem find?_intern_of_find? {table : SymbolTable} {name : String} {symbol : Symbol}
    (h : table.find? name = some symbol) (other : String) :
    (table.intern other).2.find? name = some symbol := by
  unfold intern
  split
  · exact h
  · obtain ⟨i, hi, heq⟩ := Option.map_eq_some_iff.1 h
    subst heq
    simp only [find?, List.idxOf?, List.findIdx?_append] at hi ⊢
    simp [hi]

end SymbolTable
end Armature
