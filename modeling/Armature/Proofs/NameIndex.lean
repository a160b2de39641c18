import Armature.Variable.Table
import Mathlib.Logic.Basic

/-!
# The index of the named variables

In every table that the operations lead to, a name leads to a key exactly if the variable there carries the name
(`VariableTable.Reached.exact`). The look-ups that follow the index therefore never fail: the named variables can
always be listed and copied (`VariableTable.Exact.copyNamed?_eq_some`) and adopted
(`VariableTable.Exact.adopt?_eq_some`).
-/

namespace Armature

variable {α : Type}

namespace VariableTable

/-- A name leads to a key exactly if the variable there carries the name. -/
def Exact (table : VariableTable α) : Prop :=
  ∀ name key, table.key? name = some key ↔ ∃ v, table.get? key = some v ∧ v.name = some name

/-- The tables that the operations lead to. A failed operation leaves the table as it was. -/
inductive Reached : VariableTable α → Prop
  | empty : Reached empty
  | declare {table next : VariableTable α} {name : String} {value : Value α} {key : VariableKey}
      (h : Reached table) (hnext : table.declare name value = .ok (key, next)) : Reached next
  | addLocal {table : VariableTable α} (h : Reached table) (value : Value α) :
      Reached (table.addLocal value).2
  | setKey {table next : VariableTable α} {key : VariableKey} {value : Value α}
      (h : Reached table) (hnext : table.setKey key value = .ok next) : Reached next
  | set {table next : VariableTable α} {name : String} {value : Value α}
      (h : Reached table) (hnext : table.set name value = .ok next) : Reached next
  | clear {table : VariableTable α} (h : Reached table) : Reached table.clear
  | copyNamed {table : VariableTable α} (h : Reached table) : Reached table.copyNamed
  | adopt {table next : VariableTable α} {v : Variable α} {key : VariableKey}
      (h : Reached table) (hnext : table.adopt? v = some (key, next)) : Reached next

theorem Exact.get?_of_key? {table : VariableTable α} (h : table.Exact) {name : String} {key : VariableKey}
    (hkey : table.key? name = some key) : ∃ v, table.get? key = some v ∧ v.name = some name :=
  (h name key).1 hkey

theorem Exact.key?_of_get? {table : VariableTable α} (h : table.Exact) {name : String} {key : VariableKey}
    {v : Variable α} (hv : table.get? key = some v) (hname : v.name = some name) :
    table.key? name = some key :=
  (h name key).2 ⟨v, hv, hname⟩

theorem Exact.find?_eq_some_iff {table : VariableTable α} (h : table.Exact) (name : String) (v : Variable α) :
    table.find? name = some v ↔ ∃ key, table.get? key = some v ∧ v.name = some name := by
  unfold find?
  constructor
  · intro hfind
    obtain ⟨key, hkey, hv⟩ := Option.bind_eq_some_iff.1 hfind
    obtain ⟨w, hw, hname⟩ := h.get?_of_key? hkey
    obtain rfl := Option.some.inj (hw.symm.trans hv)
    exact ⟨key, hv, hname⟩
  · rintro ⟨key, hv, hname⟩
    rw [h.key?_of_get? hv hname, Option.bind_some, hv]

theorem exact_empty : (empty : VariableTable α).Exact := by
  intro name key
  simp [key?, get?, empty]

@[simp] theorem get?_nextKey (table : VariableTable α) : table.get? table.nextKey = none :=
  Arena.get?_nextKey _

/-- A new variable keeps the index exact if its name, if it has one, was free. -/
theorem Exact.insert {table : VariableTable α} (h : table.Exact) {v : Variable α}
    (hfree : ∀ name, v.name = some name → table.key? name = none) : (table.insert v).Exact := by
  intro name key
  rw [key?_insert, get?_insert]
  by_cases hname : v.name = some name
  · rw [if_pos hname]
    by_cases hkey : key = table.nextKey
    · simp [hkey, hname]
    · have hnone : ¬ ∃ w, table.get? key = some w ∧ w.name = some name := by
        rw [← h name key, hfree name hname]
        simp
      rw [if_neg hkey]
      simp only [Option.some.injEq, hnone, iff_false]
      exact fun heq => hkey heq.symm
  · rw [if_neg hname]
    by_cases hkey : key = table.nextKey
    · have hnone : table.key? name ≠ some key := by
        intro hfound
        obtain ⟨w, hw, -⟩ := h.get?_of_key? hfound
        simp [hkey] at hw
      simp [hkey, hname, hkey ▸ hnone]
    · rw [if_neg hkey]
      exact h name key

theorem Exact.find?_insert {table : VariableTable α} (h : table.Exact) (v : Variable α) (name : String) :
    (table.insert v).find? name = if v.name = some name then some v else table.find? name := by
  unfold find?
  rw [key?_insert]
  by_cases hname : v.name = some name
  · simp [hname, get?_insert]
  · rw [if_neg hname, if_neg hname]
    cases hkey : table.key? name with
    | none => rfl
    | some key =>
      obtain ⟨w, hw, -⟩ := h.get?_of_key? hkey
      have hne : key ≠ table.nextKey := by
        rintro rfl
        simp at hw
      simp [get?_insert, hne]

/-! Assignments keep names. -/

theorem setKey_eq_ok {table next : VariableTable α} {key : VariableKey} {value : Value α}
    (h : table.setKey key value = .ok next) :
    ∃ v, table.get? key = some v ∧ value.type = v.value.type ∧
      next = { table with entries := table.entries.modify key fun _ => { v with value } } := by
  unfold setKey at h
  cases hv : table.get? key with
  | none => simp [hv] at h
  | some v =>
    rw [hv] at h
    cases hw : v.assign value with
    | error e => simp [hw, bind, Except.bind] at h
    | ok w =>
      obtain ⟨rfl, htype⟩ := Variable.eq_of_assign hw
      simp only [hw, bind, Except.bind, pure, Except.pure, Except.ok.injEq] at h
      exact ⟨v, rfl, htype, h.symm⟩

theorem set_eq_ok {table next : VariableTable α} {name : String} {value : Value α}
    (h : table.set name value = .ok next) :
    ∃ key, table.key? name = some key ∧ table.setKey key value = .ok next := by
  unfold set at h
  cases hkey : table.key? name with
  | none => simp [hkey] at h
  | some key => exact ⟨key, rfl, by simpa [hkey] using h⟩

/-- After an assignment the variable of the key has the value, and all else is as before. -/
theorem get?_setKey {table next : VariableTable α} {key : VariableKey} {value : Value α}
    (h : table.setKey key value = .ok next) (other : VariableKey) :
    next.get? other =
      if other = key then (table.get? other).map ({ · with value }) else table.get? other := by
  obtain ⟨v, hv, -, rfl⟩ := setKey_eq_ok h
  simp only [get?, Arena.get?_modify]
  by_cases heq : other = key
  · have hv : table.entries.get? key = some v := hv
    simp [heq, hv]
  · simp [heq]

theorem key?_setKey {table next : VariableTable α} {key : VariableKey} {value : Value α}
    (h : table.setKey key value = .ok next) (name : String) : next.key? name = table.key? name := by
  obtain ⟨v, -, -, rfl⟩ := setKey_eq_ok h
  rfl

theorem Exact.setKey {table next : VariableTable α} (h : table.Exact) {key : VariableKey} {value : Value α}
    (hnext : table.setKey key value = .ok next) : next.Exact := by
  intro name other
  rw [key?_setKey hnext, h name other, get?_setKey hnext]
  by_cases heq : other = key
  · cases hv : table.get? other <;> simp [heq]
  · simp [heq]

/-! The named variables can be listed, and their list is that of the index. -/

theorem mapM_eq_some {β γ : Type} {f : β → Option γ} {xs : List β} (h : ∀ x ∈ xs, (f x).isSome) :
    xs.mapM f = some (xs.filterMap f) := by
  induction xs with
  | nil => rfl
  | cons x xs ih =>
    obtain ⟨y, hy⟩ := Option.isSome_iff_exists.1 (h x (by simp))
    have ih := ih fun x hx => h x (by simp [hx])
    rw [List.mapM_cons, hy, ih, List.filterMap_cons_some hy]
    rfl

theorem Exact.named?_eq_filterMap {table : VariableTable α} (h : table.Exact) :
    table.named? = some (table.index.toList.filterMap fun (name, key) =>
      (table.get? key).map fun v => (name, key, v)) := by
  unfold named?
  rw [mapM_eq_some]
  rintro ⟨name, key⟩ hmem
  rw [Std.ExtTreeMap.mem_toList_iff_getElem?_eq_some] at hmem
  obtain ⟨v, hv, -⟩ := h.get?_of_key? hmem
  simp [hv]

theorem Exact.named?_eq_some {table : VariableTable α} (h : table.Exact) :
    table.named? = some table.named := by
  simp [named, h.named?_eq_filterMap]

theorem Exact.mem_named_iff {table : VariableTable α} (h : table.Exact) (name : String) (key : VariableKey)
    (v : Variable α) :
    (name, key, v) ∈ table.named ↔ table.key? name = some key ∧ table.get? key = some v := by
  rw [named, h.named?_eq_filterMap, Option.getD_some, List.mem_filterMap]
  constructor
  · rintro ⟨⟨other, otherKey⟩, hmem, heq⟩
    rw [Std.ExtTreeMap.mem_toList_iff_getElem?_eq_some] at hmem
    obtain ⟨w, hw, heq⟩ := Option.map_eq_some_iff.1 heq
    simp only [Prod.mk.injEq] at heq
    obtain ⟨rfl, rfl, rfl⟩ := heq
    exact ⟨hmem, hw⟩
  · rintro ⟨hkey, hv⟩
    refine ⟨(name, key), ?_, by simp [hv]⟩
    rw [Std.ExtTreeMap.mem_toList_iff_getElem?_eq_some]
    exact hkey

theorem Exact.pairwise_named {table : VariableTable α} (h : table.Exact) :
    table.named.Pairwise fun a b => a.1 ≠ b.1 := by
  rw [named, h.named?_eq_filterMap, Option.getD_some]
  refine List.Pairwise.filterMap _ ?_ table.index.distinct_keys_toList
  rintro ⟨name, key⟩ ⟨other, otherKey⟩ hne a ha b hb
  obtain ⟨v, -, rfl⟩ := Option.map_eq_some_iff.1 ha
  obtain ⟨w, -, rfl⟩ := Option.map_eq_some_iff.1 hb
  simpa using hne

/-! Copies of the named variables are found under the names of the originals. -/

/-- Inserting variables of different free names adds these variables, each under its name, and no others. -/
theorem Exact.foldl_insert {entries : List (String × VariableKey × Variable α)} {copy : VariableTable α}
    (h : copy.Exact) (hname : ∀ entry ∈ entries, entry.2.2.name = some entry.1)
    (hfree : ∀ entry ∈ entries, copy.key? entry.1 = none)
    (hdistinct : entries.Pairwise fun a b => a.1 ≠ b.1) :
    (entries.foldl (fun copy (_, _, v) => copy.insert v) copy).Exact ∧
      ∀ name v, (entries.foldl (fun copy (_, _, v) => copy.insert v) copy).find? name = some v ↔
        copy.find? name = some v ∨ ∃ key, (name, key, v) ∈ entries := by
  induction entries generalizing copy with
  | nil => simpa using h
  | cons entry entries ih =>
    obtain ⟨first, firstKey, w⟩ := entry
    obtain ⟨hfirst, hdistinct⟩ := List.pairwise_cons.1 hdistinct
    have hw : w.name = some first := hname (first, firstKey, w) (by simp)
    have hfree₁ : copy.key? first = none := hfree (first, firstKey, w) (by simp)
    have hinsert : (copy.insert w).Exact := by
      refine h.insert fun name hwname => ?_
      rw [hw, Option.some.injEq] at hwname
      exact hwname ▸ hfree₁
    have hrest : ∀ entry ∈ entries, (copy.insert w).key? entry.1 = none := by
      intro entry hentry
      rw [key?_insert, hw, if_neg]
      · exact hfree _ (by simp [hentry])
      · simpa using hfirst entry hentry
    obtain ⟨hexact, hfind⟩ := ih hinsert (fun entry hentry => hname _ (by simp [hentry])) hrest hdistinct
    refine ⟨hexact, fun name v => ?_⟩
    -- the name of the first variable was free, so under it only the first variable is found
    rw [List.foldl_cons, hfind, h.find?_insert, hw]
    by_cases heq : first = name
    · subst heq
      have hnone : copy.find? first = none := by simp [find?, hfree₁]
      rw [if_pos rfl, hnone]
      constructor
      · rintro (heq | ⟨key, hmem⟩)
        · obtain rfl := Option.some.inj heq
          exact .inr ⟨firstKey, by simp⟩
        · exact .inr ⟨key, List.mem_cons_of_mem _ hmem⟩
      · rintro (hfound | ⟨key, hmem⟩)
        · cases hfound
        · rcases List.mem_cons.1 hmem with heq | hmem
          · simp only [Prod.mk.injEq] at heq
            rw [heq.2.2]
            exact .inl rfl
          · exact .inr ⟨key, hmem⟩
    · have hne : ¬ (some first = some name) := by simpa using heq
      rw [if_neg hne]
      simp [Ne.symm heq]

/-- A named variable is listed with its name. -/
theorem Exact.name_of_mem_named {table : VariableTable α} (h : table.Exact) :
    ∀ entry ∈ table.named, entry.2.2.name = some entry.1 := by
  intro entry hentry
  obtain ⟨hkey, hv⟩ := (h.mem_named_iff _ _ _).1 hentry
  obtain ⟨w, hw, hname⟩ := h.get?_of_key? hkey
  rw [← Option.some.inj (hw.symm.trans hv)]
  exact hname

theorem foldl_insertNamed {entries : List (String × VariableKey × Variable α)}
    (h : ∀ entry ∈ entries, entry.2.2.name = some entry.1) (copy : VariableTable α) :
    entries.foldl (fun copy (name, _, v) => copy.insertNamed name v) copy =
      entries.foldl (fun copy (_, _, v) => copy.insert v) copy := by
  induction entries generalizing copy with
  | nil => rfl
  | cons entry entries ih =>
    obtain ⟨hentry, hentries⟩ := List.forall_mem_cons.1 h
    simp only [List.foldl_cons, insertNamed_eq_insert _ hentry, ih hentries]

/-- The copy of an exact table consists of its named variables, each inserted under its own name. -/
theorem Exact.copyNamed_eq_foldl {table : VariableTable α} (h : table.Exact) :
    table.copyNamed = table.named.foldl (fun copy (_, _, v) => copy.insert v) empty := by
  rw [← foldl_insertNamed h.name_of_mem_named]
  simp [copyNamed, copyNamed?, h.named?_eq_some]

/-- The named variables of an exact table can be copied, and the copies are found by the same names. -/
theorem Exact.copyNamed?_eq_some {table : VariableTable α} (h : table.Exact) :
    table.copyNamed? = some table.copyNamed ∧ table.copyNamed.Exact ∧
      ∀ name, table.copyNamed.find? name = table.find? name := by
  have hsome : table.copyNamed? = some table.copyNamed := by
    simp [copyNamed, copyNamed?, h.named?_eq_some]
  have hfold := exact_empty.foldl_insert h.name_of_mem_named (fun entry _ => by simp [key?, empty]) h.pairwise_named
  rw [← h.copyNamed_eq_foldl] at hfold
  refine ⟨hsome, hfold.1, fun name => Option.ext fun v => ?_⟩
  rw [hfold.2]
  simp only [h.mem_named_iff, find?, Option.bind_eq_some_iff]
  simp [key?, empty]

/-! Adoption. -/

/-- A variable can always be adopted by an exact table: it is the one of its name, or else new. -/
theorem Exact.adopt?_eq_some {table : VariableTable α} (h : table.Exact) (v : Variable α) :
    (∃ key w, v.name.bind table.key? = some key ∧ table.get? key = some w ∧ w.name = v.name ∧
      table.adopt? v = some (key, table)) ∨
    (v.name.bind table.key? = none ∧ table.adopt? v = some (table.nextKey, table.insert v)) := by
  unfold adopt?
  cases hkey : v.name.bind table.key? with
  | none => exact .inr ⟨rfl, rfl⟩
  | some key =>
    obtain ⟨name, hname, hfound⟩ := Option.bind_eq_some_iff.1 hkey
    obtain ⟨w, hw, hwname⟩ := h.get?_of_key? hfound
    exact .inl ⟨key, w, rfl, hw, hwname.trans hname.symm, by simp [hw]⟩

theorem Exact.adopt {table next : VariableTable α} (h : table.Exact) {v : Variable α} {key : VariableKey}
    (hnext : table.adopt? v = some (key, next)) : next.Exact := by
  rcases h.adopt?_eq_some v with ⟨found, w, -, -, -, hadopt⟩ | ⟨hfree, hadopt⟩
  · obtain ⟨rfl, rfl⟩ := Prod.mk.inj (Option.some.inj (hadopt.symm.trans hnext))
    exact h
  · obtain ⟨rfl, rfl⟩ := Prod.mk.inj (Option.some.inj (hadopt.symm.trans hnext))
    refine h.insert fun name hname => ?_
    simpa [hname] using hfree

theorem declare_eq_ok {table next : VariableTable α} {name : String} {value : Value α} {key : VariableKey}
    (h : table.declare name value = .ok (key, next)) :
    table.key? name = none ∧ key = table.nextKey ∧ next = table.insert ⟨some name, value⟩ := by
  unfold declare at h
  split at h
  · cases h
  · next hfree =>
    obtain ⟨rfl, rfl⟩ := Prod.mk.inj (Except.ok.inj h)
    exact ⟨by simpa [key?] using hfree, rfl, rfl⟩

theorem Exact.declare {table next : VariableTable α} (h : table.Exact) {name : String} {value : Value α}
    {key : VariableKey} (hnext : table.declare name value = .ok (key, next)) : next.Exact := by
  obtain ⟨hfree, -, rfl⟩ := declare_eq_ok hnext
  refine h.insert fun other hother => ?_
  rw [← Option.some.inj hother]
  exact hfree

theorem Exact.addLocal {table : VariableTable α} (h : table.Exact) (value : Value α) :
    (table.addLocal value).2.Exact :=
  h.insert fun _ hname => by cases hname

theorem Exact.set {table next : VariableTable α} (h : table.Exact) {name : String} {value : Value α}
    (hnext : table.set name value = .ok next) : next.Exact := by
  obtain ⟨key, -, hset⟩ := set_eq_ok hnext
  exact h.setKey hset

theorem exact_clear (table : VariableTable α) : table.clear.Exact := by
  intro name key
  simp

/-- The index is exact in every table that the operations lead to. -/
theorem Reached.exact {table : VariableTable α} (h : table.Reached) : table.Exact := by
  induction h with
  | empty => exact exact_empty
  | declare _ hnext ih => exact ih.declare hnext
  | addLocal _ value ih => exact ih.addLocal value
  | setKey _ hnext ih => exact ih.setKey hnext
  | set _ hnext ih => exact ih.set hnext
  | clear _ _ => exact exact_clear _
  | copyNamed _ ih => exact ih.copyNamed?_eq_some.2.1
  | adopt _ hnext ih => exact ih.adopt hnext

end VariableTable
end Armature
