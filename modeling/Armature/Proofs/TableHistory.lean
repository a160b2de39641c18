import Armature.Proofs.Isomorphism

/-!
# The history of a table of variables

Whatever is done to a table, no key comes to mean another variable: a key that has been handed out means nothing any
more, or a variable of the same name and with values of the same type (`VariableTable.Continues`). Each operation does
this, and one after the other. A clone of a graph does to its table what adopting variables does
(`Graph.keeps_cloneWithVariables`), so it counts as an operation on the table.
-/

namespace Armature

variable {α : Type}

/-- What an assignment cannot change of a variable: its name and the type of its value. -/
def Variable.signature (v : Variable α) : Option String × VariableType := (v.name, v.value.type)

namespace VariableTable

/-- A table is what has become of another one: the keys that had been handed out lead to the variables to which they
    led, with other values at most, or to none. -/
structure Continues (table next : VariableTable α) : Prop where
  issued : table.entries.issued ≤ next.entries.issued
  signature : ∀ key : VariableKey, key.id < table.entries.issued → ∀ w, next.get? key = some w →
    ∃ v, table.get? key = some v ∧ w.signature = v.signature

theorem Continues.refl (table : VariableTable α) : table.Continues table :=
  ⟨Nat.le_refl _, fun _ _ w hw => ⟨w, hw, rfl⟩⟩

theorem Continues.trans {table next last : VariableTable α} (h : table.Continues next)
    (hnext : next.Continues last) : table.Continues last where
  issued := Nat.le_trans h.issued hnext.issued
  signature key hkey w hw := by
    obtain ⟨v, hv, hsignature⟩ := hnext.signature key (Nat.lt_of_lt_of_le hkey h.issued) w hw
    obtain ⟨u, hu, hsignature'⟩ := h.signature key hkey v hv
    exact ⟨u, hu, hsignature.trans hsignature'⟩

theorem Continues.signature_eq {table next : VariableTable α} (h : table.Continues next) {key : VariableKey}
    {v w : Variable α} (hv : table.get? key = some v) (hw : next.get? key = some w) :
    w.signature = v.signature := by
  obtain ⟨u, hu, hsignature⟩ := h.signature key (lt_issued_of_contains (contains_of_get? hv)) w hw
  rw [hsignature, Option.some.inj (hu.symm.trans hv)]

/-- The key of a new variable has not been handed out before. -/
theorem continues_insert (table : VariableTable α) (v : Variable α) : table.Continues (table.insert v) where
  issued := Nat.le_succ _
  signature key hkey w hw := by
    have hold : key ≠ table.nextKey := by
      rintro rfl
      exact absurd hkey (Nat.lt_irrefl _)
    rw [get?_insert, if_neg hold] at hw
    exact ⟨w, hw, rfl⟩

/-- An assignment of a value of another type fails. -/
theorem continues_setKey {table next : VariableTable α} {key : VariableKey} {value : Value α}
    (h : table.setKey key value = .ok next) : table.Continues next where
  issued := (grows_setKey h).issued
  signature other _ w hw := by
    obtain ⟨v, hv, htype, -⟩ := setKey_eq_ok h
    rw [get?_setKey h] at hw
    by_cases heq : other = key
    · subst heq
      rw [if_pos rfl, hv, Option.map_some, Option.some.injEq] at hw
      exact ⟨v, hv, by rw [← hw, Variable.signature, htype, Variable.signature]⟩
    · rw [if_neg heq] at hw
      exact ⟨w, hw, rfl⟩

theorem continues_clear (table : VariableTable α) : table.Continues table.clear where
  issued := Nat.le_refl _
  signature _ _ _ hw := by simp at hw

/-- A variable that is adopted under a name that is taken leaves the variable of that name as it is. -/
theorem Exact.continues_adopt {table next : VariableTable α} (h : table.Exact) {v : Variable α}
    {key : VariableKey} (hnext : table.adopt? v = some (key, next)) : table.Continues next := by
  rcases h.adopt?_eq_some v with ⟨found, w, -, -, -, hadopt⟩ | ⟨-, hadopt⟩
  · obtain ⟨-, rfl⟩ := Prod.mk.inj (Option.some.inj (hadopt.symm.trans hnext))
    exact .refl table
  · obtain ⟨-, rfl⟩ := Prod.mk.inj (Option.some.inj (hadopt.symm.trans hnext))
    exact continues_insert table v

theorem Exact.grows_adopt {table next : VariableTable α} (h : table.Exact) {v : Variable α} {key : VariableKey}
    (hnext : table.adopt? v = some (key, next)) : table.Grows next := by
  rcases h.adopt?_eq_some v with ⟨found, w, -, -, -, hadopt⟩ | ⟨-, hadopt⟩
  · obtain ⟨-, rfl⟩ := Prod.mk.inj (Option.some.inj (hadopt.symm.trans hnext))
    exact .refl table
  · obtain ⟨-, rfl⟩ := Prod.mk.inj (Option.some.inj (hadopt.symm.trans hnext))
    exact grows_insert table v

end VariableTable

/-! ## Clones -/

/-- A computation of a cloner keeps what holds of its table. -/
def Cloning.Keeps {β : Type} (p : VariableTable α → Prop) (m : Cloning α β) : Prop :=
  ∀ cloner value next, m.run cloner = some (value, next) → p cloner.table → p next.table

namespace Cloning

variable {β γ : Type} {p : VariableTable α → Prop}

theorem keeps_pure (value : β) : Keeps p (pure value : Cloning α β) := by
  intro cloner result next hrun h
  obtain ⟨-, rfl⟩ := Prod.mk.inj (Option.some.inj hrun)
  exact h

theorem Keeps.bind {m : Cloning α β} {f : β → Cloning α γ} (h : Keeps p m) (hf : ∀ value, Keeps p (f value)) :
    Keeps p (m >>= f) := by
  intro cloner result next hrun hp
  rw [StateT.run_bind] at hrun
  obtain ⟨⟨value, mid⟩, hm, hrun⟩ := Option.bind_eq_some_iff.1 hrun
  exact hf value mid result next hrun (h cloner value mid hm hp)

theorem keeps_mapM {f : β → Cloning α γ} (hf : ∀ x, Keeps p (f x)) (xs : List β) : Keeps p (xs.mapM f) := by
  induction xs with
  | nil => exact keeps_pure []
  | cons x xs ih =>
    rw [List.mapM_cons]
    exact (hf x).bind fun _ => ih.bind fun _ => keeps_pure _

end Cloning

namespace Graph

variable {p : VariableTable α → Prop}

section Cloning

open Cloning

variable (graph : Graph α)
  (hadopt : ∀ table v key next, p table → VariableTable.adopt? table v = some (key, next) → p next)

include hadopt

theorem keeps_cloneVariable (key : VariableKey) : Keeps p (graph.cloneVariable key) := by
  intro cloner copy next hrun h
  rw [run_cloneVariable] at hrun
  cases hcopy : cloner.variableKey? key with
  | some copy =>
    simp only [hcopy, Option.some.injEq, Prod.mk.injEq] at hrun
    rw [← hrun.2]
    exact h
  | none =>
    cases hv : graph.table.get? key with
    | none =>
      simp only [hcopy, hv, Option.some.injEq, Prod.mk.injEq] at hrun
      rw [← hrun.2]
      exact h
    | some v =>
      simp only [hcopy, hv] at hrun
      obtain ⟨⟨copied, table⟩, hadopted, heq⟩ := Option.map_eq_some_iff.1 hrun
      rw [← (Prod.mk.inj heq).2]
      exact hadopt _ v copied table h hadopted

theorem keeps_cloneSlot {go : NodeKey → Cloning α NodeKey} (hgo : ∀ key, Keeps p (go key)) (slot : Slot) :
    Keeps p (graph.cloneSlot go slot) := by
  rcases slot with _ | child | key
  · exact keeps_pure _
  · intro cloner copy next hrun h
    rw [run_cloneSlot_node] at hrun
    split at hrun
    · obtain ⟨⟨copied, last⟩, hcopied, heq⟩ := Option.map_eq_some_iff.1 hrun
      rw [← (Prod.mk.inj heq).2]
      exact hgo child cloner copied last hcopied h
    · obtain ⟨-, rfl⟩ := Prod.mk.inj (Option.some.inj hrun)
      exact h
  · exact (keeps_cloneVariable graph hadopt key).bind fun _ => keeps_pure _

/-- The nodes that wait to be copied get fewer with every node on the way. -/
theorem keeps_cloneNode (waiting : List NodeKey) (key : NodeKey) : Keeps p (graph.cloneNode waiting key) := by
  induction hlength : waiting.length using Nat.strong_induction_on generalizing waiting key with
  | _ length ih =>
    intro cloner copy next hrun h
    rw [cloneNode] at hrun
    cases hcopy : cloner.nodeKey? key with
    | some copy =>
      simp only [StateT.run_bind, StateT.run_get, hcopy, Option.pure_def, Option.bind_eq_bind, Option.bind_some,
        StateT.run_pure, Option.some.injEq, Prod.mk.injEq] at hrun
      rw [← hrun.2]
      exact h
    | none =>
      cases hnode : graph.node? key with
      | none => simp [hcopy, hnode] at hrun
      | some node =>
        by_cases hmem : key ∈ waiting
        · have herase : (waiting.erase key).length < length := by
            have := List.length_erase_of_mem hmem
            have := List.length_pos_of_mem hmem
            omega
          have hinputs : Keeps p (node.inputs.mapM (graph.cloneSlot (graph.cloneNode (waiting.erase key)))) :=
            keeps_mapM (keeps_cloneSlot graph hadopt fun child => ih _ herase (waiting.erase key) child rfl) _
          simp only [StateT.run_bind, StateT.run_get, hcopy, hnode, hmem, Option.pure_def, Option.bind_eq_bind,
            Option.bind_some, StateT.run_monadLift, monadLift_self, dif_pos, StateT.run_modify, StateT.run_pure] at hrun
          obtain ⟨⟨inputs, mid⟩, hcopied, hrun⟩ := Option.bind_eq_some_iff.1 hrun
          obtain ⟨-, rfl⟩ := Prod.mk.inj (Option.some.inj hrun)
          exact hinputs cloner inputs mid hcopied h
        · simp [hcopy, hnode, hmem] at hrun

/-- Cloning a graph keeps whatever every adoption of a variable keeps of a table. -/
theorem keeps_cloneWithVariables {table : VariableTable α} {clone : Graph α}
    (hclone : graph.cloneWithVariables? table = some clone) (h : p table) : p clone.table := by
  have hnodes : Keeps p (graph.output.mapM (graph.cloneNode graph.nodes.keys)) := by
    cases graph.output with
    | none => exact keeps_pure none
    | some output => exact (keeps_cloneNode graph hadopt _ output).bind fun _ => keeps_pure _
  obtain ⟨⟨output, cloner⟩, hrun, hclone⟩ := Option.bind_eq_some_iff.1 hclone
  rw [← Option.some.inj hclone]
  exact hnodes (.ofTable table) output cloner hrun h

end Cloning

end Graph

/-! ## Operations -/

namespace VariableTable

/-- What is done to a table. -/
inductive Operation (α : Type) where
  | declare (name : String) (value : Value α)
  | addLocal (value : Value α)
  | setKey (key : VariableKey) (value : Value α)
  | set (name : String) (value : Value α)
  | clear
  /-- A graph is cloned, and its variables are adopted. -/
  | clone (graph : Graph α)

/-- What becomes of a table, unless the operation fails. -/
def Operation.run? (table : VariableTable α) : Operation α → Option (VariableTable α)
  | declare name value => (table.declare name value).toOption.map (·.2)
  | addLocal value => some (table.addLocal value).2
  | setKey key value => (table.setKey key value).toOption
  | set name value => (table.set name value).toOption
  | clear => some table.clear
  | clone graph => (graph.cloneWithVariables? table).map (·.table)

/-- What becomes of a table. An operation that fails leaves it as it is. -/
def Operation.run (table : VariableTable α) (operation : Operation α) : VariableTable α :=
  (operation.run? table).getD table

theorem toOption_eq_some {β : Type} {result : Except Error β} {x : β} (h : result.toOption = some x) :
    result = .ok x := by
  cases result with
  | error e => cases h
  | ok y => rw [Option.some.inj h]

/-- An operation that succeeds leads to a table that the table has become. -/
theorem Reached.run? {table next : VariableTable α} (h : table.Reached) {operation : Operation α}
    (hnext : operation.run? table = some next) : next.Reached ∧ table.Continues next := by
  cases operation with
  | declare name value =>
    obtain ⟨⟨key, other⟩, hdeclare, rfl⟩ := Option.map_eq_some_iff.1 hnext
    have hdeclare := toOption_eq_some hdeclare
    refine ⟨h.declare hdeclare, ?_⟩
    obtain ⟨-, -, rfl⟩ := declare_eq_ok hdeclare
    exact continues_insert table _
  | addLocal value =>
    obtain rfl := Option.some.inj hnext
    exact ⟨h.addLocal value, continues_insert table _⟩
  | setKey key value =>
    have hset := toOption_eq_some hnext
    exact ⟨h.setKey hset, continues_setKey hset⟩
  | set name value =>
    have hset := toOption_eq_some hnext
    obtain ⟨key, -, hkey⟩ := set_eq_ok hset
    exact ⟨h.set hset, continues_setKey hkey⟩
  | clear =>
    obtain rfl := Option.some.inj hnext
    exact ⟨h.clear, continues_clear table⟩
  | clone graph =>
    obtain ⟨clone, hclone, rfl⟩ := Option.map_eq_some_iff.1 hnext
    refine graph.keeps_cloneWithVariables (p := fun other => other.Reached ∧ table.Continues other) ?_ hclone
      ⟨h, .refl table⟩
    rintro before v key after ⟨hreached, hcontinues⟩ hadopt
    exact ⟨hreached.adopt hadopt, hcontinues.trans (hreached.exact.continues_adopt hadopt)⟩

theorem Reached.operation {table : VariableTable α} (h : table.Reached) (operation : Operation α) :
    (operation.run table).Reached ∧ table.Continues (operation.run table) := by
  unfold Operation.run
  cases hnext : operation.run? table with
  | none => exact ⟨h, .refl table⟩
  | some next => exact h.run? hnext

theorem Reached.operations {table : VariableTable α} (h : table.Reached) (operations : List (Operation α)) :
    (operations.foldl Operation.run table).Reached ∧ table.Continues (operations.foldl Operation.run table) := by
  induction operations generalizing table with
  | nil => exact ⟨h, .refl table⟩
  | cons operation operations ih =>
    obtain ⟨hreached, hcontinues⟩ := h.operation operation
    obtain ⟨hlast, hrest⟩ := ih hreached
    exact ⟨hlast, hcontinues.trans hrest⟩

/-- Nothing but clearing the table removes a variable. -/
theorem Reached.grows_operation {table : VariableTable α} (h : table.Reached) {operation : Operation α}
    (hkeeps : operation ≠ .clear) : table.Grows (operation.run table) := by
  unfold Operation.run
  cases hnext : operation.run? table with
  | none => exact .refl table
  | some next =>
    rw [Option.getD_some]
    cases operation with
    | declare name value =>
      obtain ⟨⟨key, other⟩, hdeclare, rfl⟩ := Option.map_eq_some_iff.1 hnext
      obtain ⟨-, -, rfl⟩ := declare_eq_ok (toOption_eq_some hdeclare)
      exact grows_insert table _
    | addLocal value =>
      obtain rfl := Option.some.inj hnext
      exact grows_insert table _
    | setKey key value => exact grows_setKey (toOption_eq_some hnext)
    | set name value =>
      obtain ⟨key, -, hkey⟩ := set_eq_ok (toOption_eq_some hnext)
      exact grows_setKey hkey
    | clear => exact absurd rfl hkeeps
    | clone graph =>
      obtain ⟨clone, hclone, rfl⟩ := Option.map_eq_some_iff.1 hnext
      have hboth : clone.table.Reached ∧ table.Grows clone.table := by
        refine graph.keeps_cloneWithVariables (p := fun other => other.Reached ∧ table.Grows other) ?_ hclone
          ⟨h, .refl table⟩
        rintro before v key after ⟨hreached, hgrows⟩ hadopt
        exact ⟨hreached.adopt hadopt, hgrows.trans (hreached.exact.grows_adopt hadopt)⟩
      exact hboth.2

theorem Reached.grows_operations {table : VariableTable α} (h : table.Reached) {operations : List (Operation α)}
    (hkeep : ∀ operation ∈ operations, operation ≠ .clear) : table.Grows (operations.foldl Operation.run table) := by
  induction operations generalizing table with
  | nil => exact .refl table
  | cons operation operations ih =>
    obtain ⟨hfirst, hrest⟩ := List.forall_mem_cons.1 hkeep
    exact (h.grows_operation hfirst).trans (ih (h.operation operation).1 hrest)

/-! ## The list of the named variables -/

/-- The list has one entry for each named variable, and it has no others. -/
theorem Exact.mem_named_iff_get? {table : VariableTable α} (h : table.Exact) (name : String) (key : VariableKey)
    (v : Variable α) : (name, key, v) ∈ table.named ↔ table.get? key = some v ∧ v.name = some name := by
  rw [h.mem_named_iff]
  constructor
  · rintro ⟨hkey, hv⟩
    obtain ⟨w, hw, hname⟩ := h.get?_of_key? hkey
    obtain rfl := Option.some.inj (hw.symm.trans hv)
    exact ⟨hv, hname⟩
  · rintro ⟨hv, hname⟩
    exact ⟨h.key?_of_get? hv hname, hv⟩

theorem Exact.pairwise_lt_named {table : VariableTable α} (h : table.Exact) :
    table.named.Pairwise fun a b => a.1 < b.1 := by
  rw [named, h.named?_eq_filterMap, Option.getD_some]
  refine List.Pairwise.filterMap _ ?_ table.index.ordered_keys_toList
  rintro ⟨name, key⟩ ⟨other, otherKey⟩ hlt a ha b hb
  obtain ⟨v, -, rfl⟩ := Option.map_eq_some_iff.1 ha
  obtain ⟨w, -, rfl⟩ := Option.map_eq_some_iff.1 hb
  exact compareOfLessAndEq_eq_lt.1 hlt

/-- No key is listed twice: the variable there has one name. -/
theorem Exact.nodup_keys_named {table : VariableTable α} (h : table.Exact) :
    (table.named.map (·.2.1)).Nodup := by
  refine List.pairwise_map.2 (h.pairwise_named.imp_of_mem ?_)
  rintro ⟨name, key, v⟩ ⟨other, otherKey, w⟩ hmem hmem' hne rfl
  obtain ⟨hv, hname⟩ := (h.mem_named_iff_get? _ _ _).1 hmem
  obtain ⟨hw, hother⟩ := (h.mem_named_iff_get? _ _ _).1 hmem'
  obtain rfl := Option.some.inj (hv.symm.trans hw)
  exact hne (Option.some.inj (hname.symm.trans hother))

/-- In every table that operations lead to, a name leads to a key exactly if the variable there has the name. The named
    variables can be listed, each once and in the order of their names. Whatever is done to the table from then on, the
    variable of a key that is still there has the name that it had and a value of the type that it had. -/
theorem Reached.index_exact_signature_stable {table : VariableTable α} (h : table.Reached) :
    (∀ name key, table.key? name = some key ↔ ∃ v, table.get? key = some v ∧ v.name = some name) ∧
    (∃ named, table.named? = some named ∧ named.Pairwise (fun a b => a.1 < b.1) ∧ (named.map (·.2.1)).Nodup ∧
      ∀ name key v, (name, key, v) ∈ named ↔ table.get? key = some v ∧ v.name = some name) ∧
    ∀ operations : List (Operation α), (operations.foldl Operation.run table).Reached ∧
      ∀ key v w, table.get? key = some v → (operations.foldl Operation.run table).get? key = some w →
        w.name = v.name ∧ w.value.type = v.value.type := by
  have hexact := h.exact
  refine ⟨hexact, ⟨table.named, hexact.named?_eq_some, hexact.pairwise_lt_named, hexact.nodup_keys_named,
    hexact.mem_named_iff_get?⟩, fun operations => ?_⟩
  obtain ⟨hreached, hcontinues⟩ := h.operations operations
  exact ⟨hreached, fun key v w hv hw => Prod.mk.inj (hcontinues.signature_eq hv hw)⟩

/-- A truth value stays one, though a graph with a number of the same name is cloned on the table. -/
theorem index_exact_signature_stable_foreign :
    ∃ w, ([.clone Graph.tuned, .set "speed" (.float 1), .set "speed" (.bool false)].foldl Operation.run
        Graph.foreign).get? ⟨1⟩ = some w ∧ w.name = some "speed" ∧ w.value.type = .bool := by
  obtain ⟨-, -, hstable⟩ := Graph.reached_foreign.index_exact_signature_stable
  have hspeed : Graph.foreign.get? ⟨1⟩ = some ⟨some "speed", .bool true⟩ := rfl
  have hlive : ([.clone Graph.tuned, .set "speed" (.float 1), .set "speed" (.bool false)].foldl Operation.run
      Graph.foreign).contains ⟨1⟩ :=
    (Graph.reached_foreign.grows_operations (by simp)).contains ⟨1⟩ (contains_of_get? hspeed)
  obtain ⟨w, hw⟩ := Option.isSome_iff_exists.1 hlive
  exact ⟨w, hw, (hstable _).2 _ _ w hspeed hw⟩

end VariableTable
end Armature
