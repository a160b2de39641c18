import Std.Data.ExtTreeMap.Lemmas

/-!
Arenas: entries that are referred to by keys.

An arena hands out a new key for every entry and never hands out a key again, so that the key of an entry
that is gone refers to nothing for ever.
-/

namespace Armature

/-- What the keys of an arena refer to. -/
inductive KeyKind where
  | node
  | variable
  | actor

/-- A key of one kind. -/
structure Key (kind : KeyKind) where
  id : Nat
deriving DecidableEq

/-- Entries by key. -/
structure Arena (kind : KeyKind) (β : Type) where
  entries : Std.ExtTreeMap Nat β
  /-- The number of keys that have been handed out. -/
  issued : Nat
  /-- No entry has a key that has not been handed out. -/
  entries_issued : ∀ id, issued ≤ id → entries[id]? = none

namespace Arena

variable {kind : KeyKind} {β : Type}

def empty : Arena kind β := ⟨∅, 0, by simp⟩

instance : Inhabited (Arena kind β) := ⟨empty⟩

def get? (arena : Arena kind β) (key : Key kind) : Option β := arena.entries[key.id]?

def contains (arena : Arena kind β) (key : Key kind) : Bool := (arena.get? key).isSome

def size (arena : Arena kind β) : Nat := arena.entries.size

/-- The key that the next insertion hands out. It refers to nothing yet. -/
def nextKey (arena : Arena kind β) : Key kind := ⟨arena.issued⟩

/-- Adds an entry, under `nextKey`. -/
def insert (arena : Arena kind β) (entry : β) : Arena kind β where
  entries := arena.entries.insert arena.issued entry
  issued := arena.issued + 1
  entries_issued id h := by
    have := arena.entries_issued id (by omega)
    grind

/-- Changes the entry of a key, if it has one. -/
def modify (arena : Arena kind β) (key : Key kind) (f : β → β) : Arena kind β where
  entries := arena.entries.modify key.id f
  issued := arena.issued
  entries_issued id h := by
    have := arena.entries_issued id h
    grind

def erase (arena : Arena kind β) (key : Key kind) : Arena kind β where
  entries := arena.entries.erase key.id
  issued := arena.issued
  entries_issued id h := by
    have := arena.entries_issued id h
    grind

def clear (arena : Arena kind β) : Arena kind β where
  entries := ∅
  issued := arena.issued
  entries_issued := by simp

/-- The keys that have entries, in the order in which they were handed out. -/
def keys (arena : Arena kind β) : List (Key kind) := arena.entries.keys.map Key.mk

/-- The entries with their keys, in the order in which the keys were handed out. -/
def toList (arena : Arena kind β) : List (Key kind × β) :=
  arena.entries.toList.map fun (id, entry) => (⟨id⟩, entry)

/-! What each operation does to the entries. -/

@[simp] theorem get?_empty (key : Key kind) : (empty : Arena kind β).get? key = none := by
  simp [get?, empty]

@[simp] theorem get?_nextKey (arena : Arena kind β) : arena.get? arena.nextKey = none :=
  arena.entries_issued _ (Nat.le_refl _)

theorem get?_insert (arena : Arena kind β) (entry : β) (key : Key kind) :
    (arena.insert entry).get? key = if key = arena.nextKey then some entry else arena.get? key := by
  cases key
  simp only [get?, insert, nextKey, Key.mk.injEq]
  grind

theorem get?_modify (arena : Arena kind β) (key other : Key kind) (f : β → β) :
    (arena.modify key f).get? other =
      if other = key then (arena.get? other).map f else arena.get? other := by
  cases key
  cases other
  simp only [get?, modify, Key.mk.injEq]
  grind

theorem get?_erase (arena : Arena kind β) (key other : Key kind) :
    (arena.erase key).get? other = if other = key then none else arena.get? other := by
  cases key
  cases other
  simp only [get?, erase, Key.mk.injEq]
  grind

@[simp] theorem get?_clear (arena : Arena kind β) (key : Key kind) :
    arena.clear.get? key = none := by
  simp [get?, clear]

/-! The lists of keys and entries hold what the look-up finds. -/

@[simp] theorem mem_keys (arena : Arena kind β) (key : Key kind) :
    key ∈ arena.keys ↔ arena.contains key := by
  cases key
  simp [keys, contains, get?]

theorem nodup_keys (arena : Arena kind β) : arena.keys.Nodup := by
  refine List.Pairwise.map _ (fun a b h => ?_) Std.ExtTreeMap.nodup_keys
  simpa using h

theorem mem_toList (arena : Arena kind β) (key : Key kind) (entry : β) :
    (key, entry) ∈ arena.toList ↔ arena.get? key = some entry := by
  cases key
  simp [toList, get?]

end Arena
end Armature
