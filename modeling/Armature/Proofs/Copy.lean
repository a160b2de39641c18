import Armature.Graph.Clone
import Armature.Proofs.Binding
import Armature.Proofs.NameIndex

/-!
# Copies of graphs

What the cloning of a graph leads to. At any moment the copies that exist are those of some nodes and variables, each
copied once, and the inputs of a copied node are bound to the copies of what the inputs of the node are bound to
(`Cloner.Faithful`); from one moment to the next copies are added and none is changed (`Cloner.Extends`). Since
bindings are acyclic the cloning comes to an end (`Graph.copies_cloneNode`).
-/

namespace Armature

variable {α : Type}

section Forall₂

variable {β γ : Type} {r : β → γ → Prop} {xs : List β} {ys : List γ}

theorem exists_of_mem_right (h : List.Forall₂ r xs ys) {y : γ} (hy : y ∈ ys) : ∃ x ∈ xs, r x y := by
  induction h with
  | nil => cases hy
  | @cons x first xs ys hxy _ ih =>
    rcases List.mem_cons.1 hy with rfl | hy
    · exact ⟨x, by simp, hxy⟩
    · obtain ⟨other, hother, hr⟩ := ih hy
      exact ⟨other, by simp [hother], hr⟩

theorem exists_of_mem_left (h : List.Forall₂ r xs ys) {x : β} (hx : x ∈ xs) : ∃ y ∈ ys, r x y :=
  exists_of_mem_right (r := flip r) (List.Forall₂.flip h) hx

theorem forall₂_of_mem {q : β → γ → Prop} (h : List.Forall₂ r xs ys)
    (hq : ∀ x ∈ xs, ∀ y ∈ ys, r x y → q x y) : List.Forall₂ q xs ys := by
  induction h with
  | nil => exact .nil
  | cons hxy _ ih =>
    refine .cons (hq _ (by simp) _ (by simp) hxy) (ih fun x hx y hy => ?_)
    exact hq x (by simp [hx]) y (by simp [hy])

end Forall₂

namespace Graph

/-- The variables that are bound to inputs of a node and of the nodes that it leads to. -/
def variablesBelow (graph : Graph α) (key : NodeKey) : Set VariableKey :=
  {variableKey | ∃ parent, Relation.ReflTransGen graph.nodes.Binds key parent ∧
    ∃ node, graph.node? parent = some node ∧ Slot.variable variableKey ∈ node.inputs}

theorem variablesBelow_subset {graph : Graph α} {key child : NodeKey} (h : graph.nodes.Binds key child) :
    graph.variablesBelow child ⊆ graph.variablesBelow key := by
  rintro variableKey ⟨parent, hparent, hvariable⟩
  exact ⟨parent, .head h hparent, hvariable⟩

end Graph

namespace Cloner

/-- A slot and its copy, which is bound to the copy of what the slot is bound to, if that is there. -/
inductive SlotCopied (graph : Graph α) (cloner : Cloner α) : Slot → Slot → Prop
  | unbound : SlotCopied graph cloner .unbound .unbound
  | toNode {child copy : NodeKey} (h : cloner.nodeKey? child = some copy) :
      SlotCopied graph cloner (.node child) (.node copy)
  | deadNode {child : NodeKey} (h : graph.node? child = none) :
      SlotCopied graph cloner (.node child) .unbound
  | toVariable {key copy : VariableKey} (h : cloner.variableKey? key = some copy) :
      SlotCopied graph cloner (.variable key) (.variable copy)
  | deadVariable {key : VariableKey} (h : graph.table.get? key = none) :
      SlotCopied graph cloner (.variable key) .unbound

/-- A variable and the key of its copy: the variable of the same name in the table that was there at the start, or
    else a new variable with the same name and value. -/
def VariableCopied (start table : VariableTable α) (v : Variable α) (copy : VariableKey) : Prop :=
  v.name.bind start.key? = some copy ∨
    (v.name.bind start.key? = none ∧ start.get? copy = none ∧ table.get? copy = some v)

/-- The copies of a cloner are copies of different nodes and variables of a graph, and there is nothing else but the
    variables that were there at the start. -/
structure Faithful (graph : Graph α) (start : VariableTable α) (cloner : Cloner α) : Prop where
  reached : cloner.table.Reached
  kept : ∀ key v, start.get? key = some v → cloner.table.get? key = some v
  added : ∀ key v, cloner.table.get? key = some v →
    start.get? key = some v ∨ ∃ old, cloner.variableKey? old = some key
  copied_variable : ∀ key copy, cloner.variableKey? key = some copy →
    ∃ v, graph.table.get? key = some v ∧ VariableCopied start cloner.table v copy
  variable_injective : ∀ key other copy, cloner.variableKey? key = some copy →
    cloner.variableKey? other = some copy → key = other
  copied_node : ∀ key copy, cloner.nodeKey? key = some copy → ∃ node inputs, graph.node? key = some node ∧
    cloner.nodes.get? copy = some (node.withInputs inputs) ∧
    List.Forall₂ (SlotCopied graph cloner) node.inputs inputs
  node_injective : ∀ key other copy, cloner.nodeKey? key = some copy →
    cloner.nodeKey? other = some copy → key = other
  copies : ∀ copy, cloner.nodes.contains copy → ∃ key, cloner.nodeKey? key = some copy

/-- A cloner has what another one has, and beyond that copies of some nodes and some variables. -/
structure Extends (fresh : Set NodeKey) (used : Set VariableKey) (cloner next : Cloner α) : Prop where
  keepsNode : ∀ key copy, cloner.nodeKey? key = some copy → next.nodeKey? key = some copy
  keepsVariable : ∀ key copy, cloner.variableKey? key = some copy → next.variableKey? key = some copy
  newNode : ∀ key copy, next.nodeKey? key = some copy → cloner.nodeKey? key = some copy ∨ key ∈ fresh
  newVariable : ∀ key copy, next.variableKey? key = some copy →
    cloner.variableKey? key = some copy ∨ key ∈ used

/-! ## Moments -/

theorem nodeKey?_insertNode (cloner : Cloner α) (key other : NodeKey) (copy : Node α) :
    (cloner.insertNode key copy).nodeKey? other =
      if other = key then some cloner.nodes.nextKey else cloner.nodeKey? other := by
  cases key
  cases other
  simp only [nodeKey?, insertNode, Key.mk.injEq]
  grind

theorem variableKey?_insertVariable (cloner : Cloner α) (key copy other : VariableKey)
    (table : VariableTable α) :
    (cloner.insertVariable key copy table).variableKey? other =
      if other = key then some copy else cloner.variableKey? other := by
  cases key
  cases other
  simp only [variableKey?, insertVariable, Key.mk.injEq]
  grind

section Extends

variable {fresh : Set NodeKey} {used : Set VariableKey} {cloner next last : Cloner α}

theorem Extends.refl (cloner : Cloner α) : Extends fresh used cloner cloner :=
  ⟨fun _ _ h => h, fun _ _ h => h, fun _ _ h => .inl h, fun _ _ h => .inl h⟩

theorem Extends.trans (h : Extends fresh used cloner next) (hnext : Extends fresh used next last) :
    Extends fresh used cloner last where
  keepsNode key copy hcopy := hnext.keepsNode key copy (h.keepsNode key copy hcopy)
  keepsVariable key copy hcopy := hnext.keepsVariable key copy (h.keepsVariable key copy hcopy)
  newNode key copy hcopy := (hnext.newNode key copy hcopy).elim (h.newNode key copy) .inr
  newVariable key copy hcopy := (hnext.newVariable key copy hcopy).elim (h.newVariable key copy) .inr

theorem Extends.mono {fresh' : Set NodeKey} {used' : Set VariableKey} (h : Extends fresh used cloner next)
    (hfresh : fresh ⊆ fresh') (hused : used ⊆ used') : Extends fresh' used' cloner next where
  keepsNode := h.keepsNode
  keepsVariable := h.keepsVariable
  newNode key copy hcopy := (h.newNode key copy hcopy).imp_right fun hmem => hfresh hmem
  newVariable key copy hcopy := (h.newVariable key copy hcopy).imp_right fun hmem => hused hmem

/-- Copies of slots stay copies when more is copied. -/
theorem SlotCopied.mono {graph : Graph α} {slot copy : Slot} (h : SlotCopied graph cloner slot copy)
    (hnext : Extends fresh used cloner next) : SlotCopied graph next slot copy := by
  cases h with
  | unbound => exact .unbound
  | toNode h => exact .toNode (hnext.keepsNode _ _ h)
  | deadNode h => exact .deadNode h
  | toVariable h => exact .toVariable (hnext.keepsVariable _ _ h)
  | deadVariable h => exact .deadVariable h

theorem forall₂_slotCopied_mono {graph : Graph α} {slots copies : List Slot}
    (h : List.Forall₂ (SlotCopied graph cloner) slots copies) (hnext : Extends fresh used cloner next) :
    List.Forall₂ (SlotCopied graph next) slots copies :=
  h.imp fun _ _ hslot => hslot.mono hnext

end Extends

section Faithful

variable {graph : Graph α} {start : VariableTable α} {cloner : Cloner α}

theorem faithful_ofTable (graph : Graph α) {start : VariableTable α} (hstart : start.Reached) :
    Faithful graph start (.ofTable start) where
  reached := hstart
  kept _ _ hv := hv
  added _ _ hv := .inl hv
  copied_variable _ _ hcopy := by simp [variableKey?, ofTable] at hcopy
  variable_injective _ _ _ hcopy := by simp [variableKey?, ofTable] at hcopy
  copied_node _ _ hcopy := by simp [nodeKey?, ofTable] at hcopy
  node_injective _ _ _ hcopy := by simp [nodeKey?, ofTable] at hcopy
  copies _ hcopy := by simp [Arena.contains, ofTable] at hcopy

theorem Faithful.get?_variableKey? (h : Faithful graph start cloner) (hstart : start.Reached)
    {key copy : VariableKey} (hcopy : cloner.variableKey? key = some copy) :
    ∃ v w, graph.table.get? key = some v ∧ cloner.table.get? copy = some w ∧ w.name = v.name := by
  obtain ⟨v, hv, hfound | ⟨-, -, hnew⟩⟩ := h.copied_variable key copy hcopy
  · obtain ⟨name, hname, hfound⟩ := Option.bind_eq_some_iff.1 hfound
    obtain ⟨w, hw, hwname⟩ := hstart.exact.get?_of_key? hfound
    exact ⟨v, w, hv, h.kept copy w hw, hwname.trans hname.symm⟩
  · exact ⟨v, v, hv, hnew, rfl⟩

/-- Every variable of a cloner was there at the start, or has the name and value of a variable of the graph. -/
theorem Faithful.exists_origin (h : Faithful graph start cloner) (hstart : start.Reached) {key : VariableKey}
    {v : Variable α} (hv : cloner.table.get? key = some v) :
    start.get? key = some v ∨ ∃ old, graph.table.get? old = some v := by
  rcases h.added key v hv with hold | ⟨old, hcopy⟩
  · exact .inl hold
  · obtain ⟨source, hsource, hfound | ⟨-, -, hnew⟩⟩ := h.copied_variable old key hcopy
    · obtain ⟨name, -, hfound⟩ := Option.bind_eq_some_iff.1 hfound
      obtain ⟨w, hw, -⟩ := hstart.exact.get?_of_key? hfound
      obtain rfl := Option.some.inj ((h.kept key w hw).symm.trans hv)
      exact .inl hw
    · obtain rfl := Option.some.inj (hnew.symm.trans hv)
      exact .inr ⟨old, hsource⟩

theorem Faithful.eq_of_name (h : Faithful graph start cloner) (hstart : start.Reached)
    (hexact : graph.table.Exact) {key other copy : VariableKey} {v w : Variable α} {name : String}
    (hv : graph.table.get? key = some v) (hname : v.name = some name)
    (hw : cloner.table.get? copy = some w) (hwname : w.name = v.name)
    (hother : cloner.variableKey? other = some copy) : other = key := by
  obtain ⟨v', w', hv', hw', hname'⟩ := h.get?_variableKey? hstart hother
  obtain rfl := Option.some.inj (hw.symm.trans hw')
  have hother := hexact.key?_of_get? hv' (hname'.symm.trans (hwname.trans hname))
  exact Option.some.inj (hother.symm.trans (hexact.key?_of_get? hv hname))

theorem Faithful.key?_of_start (h : Faithful graph start cloner) (hstart : start.Reached) {name : String}
    {key : VariableKey} (hkey : start.key? name = some key) : cloner.table.key? name = some key := by
  obtain ⟨w, hw, hname⟩ := hstart.exact.get?_of_key? hkey
  exact h.reached.exact.key?_of_get? (h.kept key w hw) hname

theorem extends_insertVariable {key : VariableKey} (hnew : cloner.variableKey? key = none)
    (copy : VariableKey) (table : VariableTable α) {fresh : Set NodeKey} {used : Set VariableKey}
    (hkey : key ∈ used) : Extends fresh used cloner (cloner.insertVariable key copy table) where
  keepsNode _ _ h := h
  keepsVariable other otherCopy h := by
    rw [variableKey?_insertVariable, if_neg, h]
    rintro rfl
    rw [hnew] at h
    cases h
  newNode _ _ h := .inl h
  newVariable other otherCopy h := by
    rw [variableKey?_insertVariable] at h
    split at h
    · next heq => exact .inr (heq ▸ hkey)
    · exact .inl h

/-- Adding the copy of a variable keeps a cloner faithful, if no other variable is copied to it. -/
theorem Faithful.insertVariable (h : Faithful graph start cloner) {key copy : VariableKey}
    {v : Variable α} {table : VariableTable α} (hv : graph.table.get? key = some v)
    (hnew : cloner.variableKey? key = none) (hreached : table.Reached)
    (hkept : ∀ other w, cloner.table.get? other = some w → table.get? other = some w)
    (hadded : ∀ other w, table.get? other = some w → cloner.table.get? other = some w ∨ other = copy)
    (hcopied : VariableCopied start table v copy) (hfree : ∀ other, cloner.variableKey? other ≠ some copy) :
    Faithful graph start (cloner.insertVariable key copy table) := by
  have hextends : Extends ∅ {key} cloner (cloner.insertVariable key copy table) :=
    extends_insertVariable hnew copy table rfl
  refine { h with
    reached := hreached, kept := ?_, added := ?_, copied_variable := ?_, variable_injective := ?_, copied_node := ?_ }
  · intro other w hw
    exact hkept other w (h.kept other w hw)
  · intro other w hw
    rcases hadded other w hw with hw | rfl
    · exact (h.added other w hw).imp_right fun ⟨old, hold⟩ => ⟨old, hextends.keepsVariable old other hold⟩
    · exact .inr ⟨key, by rw [variableKey?_insertVariable, if_pos rfl]⟩
  · intro other otherCopy hcopy
    rw [variableKey?_insertVariable] at hcopy
    split at hcopy
    · next heq =>
      obtain rfl := Option.some.inj hcopy
      exact ⟨v, heq ▸ hv, hcopied⟩
    · obtain ⟨w, hw, hcopied⟩ := h.copied_variable other otherCopy hcopy
      exact ⟨w, hw, hcopied.imp_right fun ⟨hname, hstart, hget⟩ => ⟨hname, hstart, hkept _ _ hget⟩⟩
  · intro a b c ha hb
    rw [variableKey?_insertVariable] at ha hb
    split at ha <;> split at hb
    · next ha' hb' => exact ha'.trans hb'.symm
    · exact absurd (hb.trans ha.symm) (hfree b)
    · exact absurd (ha.trans hb.symm) (hfree a)
    · exact h.variable_injective a b c ha hb
  · intro other otherCopy hcopy
    obtain ⟨node, inputs, hnode, hget, hinputs⟩ := h.copied_node other otherCopy hcopy
    exact ⟨node, inputs, hnode, hget, forall₂_slotCopied_mono hinputs hextends⟩

/-- A variable whose name is in the table is copied to the variable of that name. -/
theorem Faithful.adopt_named (h : Faithful graph start cloner) (hstart : start.Reached)
    (hexact : graph.table.Exact) {key copy : VariableKey} {v w : Variable α}
    (hv : graph.table.get? key = some v) (hnew : cloner.variableKey? key = none)
    (hfound : v.name.bind cloner.table.key? = some copy) (hw : cloner.table.get? copy = some w)
    (hwname : w.name = v.name) : Faithful graph start (cloner.insertVariable key copy cloner.table) := by
  obtain ⟨name, hname, -⟩ := Option.bind_eq_some_iff.1 hfound
  have hother : ∀ other, cloner.variableKey? other ≠ some copy := by
    intro other hother
    obtain rfl := h.eq_of_name hstart hexact hv hname hw hwname hother
    rw [hnew] at hother
    cases hother
  refine h.insertVariable hv hnew h.reached (fun _ _ hw => hw) (fun _ _ hw => .inl hw) (.inl ?_) hother
  -- the copy was there at the start, since no other variable was copied to it
  rcases h.added _ w hw with hold | ⟨old, hold⟩
  · rw [hname, Option.bind_some]
    exact hstart.exact.key?_of_get? hold (hwname.trans hname)
  · exact absurd hold (hother old)

/-- A variable whose name, if it has one, is not in the table is copied to a new variable. -/
theorem Faithful.adopt_new (h : Faithful graph start cloner) (hstart : start.Reached) {key : VariableKey}
    {v : Variable α} (hv : graph.table.get? key = some v) (hnew : cloner.variableKey? key = none)
    (hfree : v.name.bind cloner.table.key? = none) (hreached : (cloner.table.insert v).Reached) :
    Faithful graph start (cloner.insertVariable key cloner.table.nextKey (cloner.table.insert v)) := by
  have hkept : ∀ other w, cloner.table.get? other = some w →
      (cloner.table.insert v).get? other = some w := by
    intro other w hw
    rw [VariableTable.get?_insert, if_neg, hw]
    rintro rfl
    simp at hw
  have hadded : ∀ other w, (cloner.table.insert v).get? other = some w →
      cloner.table.get? other = some w ∨ other = cloner.table.nextKey := by
    intro other w hw
    rw [VariableTable.get?_insert] at hw
    split at hw
    · next heq => exact .inr heq
    · exact .inl hw
  -- what was there at the start is still in the table: neither the name nor the new key is from there
  have hfreeStart : v.name.bind start.key? = none := by
    cases hname : v.name with
    | none => rfl
    | some name =>
      rw [hname, Option.bind_some] at hfree
      cases hkey : start.key? name with
      | none => rw [Option.bind_some, hkey]
      | some own =>
        rw [h.key?_of_start hstart hkey] at hfree
        cases hfree
  have hnewStart : start.get? cloner.table.nextKey = none := by
    cases hget : start.get? cloner.table.nextKey with
    | none => rfl
    | some w => simpa using h.kept _ w hget
  refine h.insertVariable hv hnew hreached hkept hadded (.inr ⟨hfreeStart, hnewStart, ?_⟩) ?_
  · rw [VariableTable.get?_insert, if_pos rfl]
  · intro other hother
    obtain ⟨_, w, -, hw, -⟩ := h.get?_variableKey? hstart hother
    simp at hw

/-- A variable that has not been copied can be, and the cloner stays faithful. -/
theorem Faithful.adopt (h : Faithful graph start cloner) (hstart : start.Reached)
    (hexact : graph.table.Exact) {key : VariableKey} {v : Variable α} (hv : graph.table.get? key = some v)
    (hnew : cloner.variableKey? key = none) :
    ∃ copy table, cloner.table.adopt? v = some (copy, table) ∧
      Faithful graph start (cloner.insertVariable key copy table) := by
  rcases h.reached.exact.adopt?_eq_some v with ⟨copy, w, hfound, hw, hwname, hadopt⟩ | ⟨hfree, hadopt⟩
  · exact ⟨copy, cloner.table, hadopt, h.adopt_named hstart hexact hv hnew hfound hw hwname⟩
  · exact ⟨_, _, hadopt, h.adopt_new hstart hv hnew hfree (h.reached.adopt hadopt)⟩

theorem extends_insertNode {key : NodeKey} (hnew : cloner.nodeKey? key = none) (copy : Node α)
    {fresh : Set NodeKey} {used : Set VariableKey} (hkey : key ∈ fresh) :
    Extends fresh used cloner (cloner.insertNode key copy) where
  keepsVariable _ _ h := h
  keepsNode other otherCopy h := by
    rw [nodeKey?_insertNode, if_neg, h]
    rintro rfl
    rw [hnew] at h
    cases h
  newVariable _ _ h := .inl h
  newNode other otherCopy h := by
    rw [nodeKey?_insertNode] at h
    split at h
    · next heq => exact .inr (heq ▸ hkey)
    · exact .inl h

/-- Adding the copy of a node keeps a cloner faithful, once the inputs of the node have been copied. -/
theorem Faithful.insertNode (h : Faithful graph start cloner) {key : NodeKey} {node : Node α}
    {inputs : List Slot} (hnode : graph.node? key = some node) (hnew : cloner.nodeKey? key = none)
    (hinputs : List.Forall₂ (SlotCopied graph cloner) node.inputs inputs) :
    Faithful graph start (cloner.insertNode key (node.withInputs inputs)) := by
  have hextends : Extends {key} ∅ cloner (cloner.insertNode key (node.withInputs inputs)) :=
    extends_insertNode hnew _ rfl
  have hlive : ∀ other copy, cloner.nodeKey? other = some copy → copy ≠ cloner.nodes.nextKey := by
    rintro other copy hcopy rfl
    obtain ⟨_, _, -, hget, -⟩ := h.copied_node other _ hcopy
    simp at hget
  refine { h with copied_node := ?_, node_injective := ?_, copies := ?_ }
  · intro other copy hcopy
    rw [nodeKey?_insertNode] at hcopy
    split at hcopy
    · next heq =>
      obtain rfl := Option.some.inj hcopy
      refine ⟨node, inputs, heq ▸ hnode, ?_, forall₂_slotCopied_mono hinputs hextends⟩
      exact (Arena.get?_insert _ _ _).trans (if_pos rfl)
    · obtain ⟨node', inputs', hnode', hget, hinputs'⟩ := h.copied_node other copy hcopy
      refine ⟨node', inputs', hnode', ?_, forall₂_slotCopied_mono hinputs' hextends⟩
      exact ((Arena.get?_insert _ _ _).trans (if_neg (hlive other copy hcopy))).trans hget
  · intro a b c ha hb
    rw [nodeKey?_insertNode] at ha hb
    split at ha <;> split at hb
    · next ha' hb' => exact ha'.trans hb'.symm
    · exact absurd (Option.some.inj ha).symm (hlive b c hb)
    · exact absurd (Option.some.inj hb).symm (hlive a c ha)
    · exact h.node_injective a b c ha hb
  · intro copy hcopy
    rw [Arena.contains, Cloner.insertNode, Arena.get?_insert] at hcopy
    split at hcopy
    · next heq => exact ⟨key, by rw [nodeKey?_insertNode, if_pos rfl, heq]⟩
    · obtain ⟨other, hother⟩ := h.copies copy hcopy
      exact ⟨other, hextends.keepsNode other copy hother⟩

/-- The bindings of copies come from bindings of the nodes that they are copies of. -/
theorem Faithful.binds (h : Faithful graph start cloner) {key copy child : NodeKey}
    (hkey : cloner.nodeKey? key = some copy) (hbinds : cloner.nodes.Binds copy child) :
    ∃ source, cloner.nodeKey? source = some child ∧ graph.nodes.Binds key source := by
  obtain ⟨node, inputs, hnode, hget, hinputs⟩ := h.copied_node key copy hkey
  obtain ⟨copied, hcopied, hmem⟩ := hbinds
  obtain rfl := Option.some.inj (hget.symm.trans hcopied)
  obtain ⟨slot, hslot, hcopy⟩ := exists_of_mem_right hinputs hmem
  cases hcopy with
  | @toNode source _ hsource => exact ⟨source, hsource, node, hnode, hslot⟩

/-- The copies of acyclic bindings are acyclic. -/
theorem Faithful.acyclic (h : Faithful graph start cloner) (hacyclic : graph.nodes.Acyclic) :
    cloner.nodes.Acyclic := by
  have hway : ∀ copy last, Relation.TransGen cloner.nodes.Binds copy last →
      ∀ key, cloner.nodeKey? key = some copy →
        ∃ source, cloner.nodeKey? source = some last ∧ Relation.TransGen graph.nodes.Binds key source := by
    intro copy last hway
    induction hway with
    | single hbinds =>
      intro key hkey
      obtain ⟨source, hsource, hbinds⟩ := h.binds hkey hbinds
      exact ⟨source, hsource, .single hbinds⟩
    | tail _ hbinds ih =>
      intro key hkey
      obtain ⟨mid, hmid, hway⟩ := ih key hkey
      obtain ⟨source, hsource, hbinds⟩ := h.binds hmid hbinds
      exact ⟨source, hsource, hway.tail hbinds⟩
  intro copy hcycle
  obtain ⟨child, hbinds, -⟩ := Relation.TransGen.head'_iff.1 hcycle
  obtain ⟨key, hkey⟩ := h.copies copy hbinds.contains
  obtain ⟨source, hsource, hway⟩ := hway copy copy hcycle key hkey
  rw [h.node_injective source key copy hsource hkey] at hway
  exact hacyclic key hway

end Faithful

end Cloner

namespace Graph

open Cloner

/-! ## Computations -/

/-- A computation of a cloner comes to an end. It keeps the cloner faithful, adds copies of some nodes and some variables
    to it, and its value is right for the cloner that it leads to. -/
def Copies {β : Type} (graph : Graph α) (start : VariableTable α) (m : Cloning α β) (fresh : Set NodeKey)
    (used : Set VariableKey) (post : Cloner α → β → Prop) : Prop :=
  ∀ cloner, cloner.Faithful graph start → ∃ value next, m.run cloner = some (value, next) ∧
    next.Faithful graph start ∧ cloner.Extends fresh used next ∧ post next value

variable {graph : Graph α} {start : VariableTable α}

theorem run_cloneVariable (graph : Graph α) (key : VariableKey) (cloner : Cloner α) :
    (graph.cloneVariable key).run cloner =
      match cloner.variableKey? key with
      | some copy => some (some copy, cloner)
      | none =>
        match graph.table.get? key with
        | none => some (none, cloner)
        | some v => (cloner.table.adopt? v).map fun (copy, table) =>
          (some copy, cloner.insertVariable key copy table) := by
  cases hcopy : cloner.variableKey? key with
  | some copy => simp [cloneVariable, hcopy]
  | none =>
    cases hv : graph.table.get? key with
    | none => simp [cloneVariable, hcopy, hv]
    | some v => cases hadopt : cloner.table.adopt? v <;> simp [cloneVariable, hcopy, hv, hadopt]

theorem copies_cloneVariable (hstart : start.Reached) (hexact : graph.table.Exact) (key : VariableKey)
    {fresh : Set NodeKey} {used : Set VariableKey} (hkey : key ∈ used) :
    graph.Copies start (graph.cloneVariable key) fresh used fun next copy =>
      next.SlotCopied graph (.variable key) ((copy.map .variable).getD .unbound) := by
  intro cloner h
  rw [run_cloneVariable]
  cases hcopy : cloner.variableKey? key with
  | some copy => exact ⟨some copy, cloner, rfl, h, .refl cloner, .toVariable hcopy⟩
  | none =>
    cases hv : graph.table.get? key with
    | none => exact ⟨none, cloner, rfl, h, .refl cloner, .deadVariable hv⟩
    | some v =>
      obtain ⟨copy, table, hadopt, hnext⟩ := h.adopt hstart hexact hv hcopy
      refine ⟨some copy, cloner.insertVariable key copy table, by simp [hadopt], hnext,
        extends_insertVariable hcopy copy table hkey, .toVariable ?_⟩
      rw [variableKey?_insertVariable, if_pos rfl]

/-- The nodes that a node leads to, itself included. -/
def below (graph : Graph α) (key : NodeKey) : Set NodeKey :=
  {other | Relation.ReflTransGen graph.nodes.Binds key other}

/-- The nodes that the inputs of a node lead to. -/
def strictlyBelow (graph : Graph α) (key : NodeKey) : Set NodeKey :=
  {other | Relation.TransGen graph.nodes.Binds key other}

/-- A computation makes the copy of a node, with the copies of what is below it. -/
def NodeCopies (graph : Graph α) (start : VariableTable α) (go : NodeKey → Cloning α NodeKey)
    (key : NodeKey) : Prop :=
  graph.Copies start (go key) (graph.below key) (graph.variablesBelow key)
    fun next copy => next.nodeKey? key = some copy

theorem run_cloneSlot_node (graph : Graph α) (go : NodeKey → Cloning α NodeKey) (child : NodeKey)
    (cloner : Cloner α) :
    (graph.cloneSlot go (.node child)).run cloner =
      if graph.nodes.contains child then
        ((go child).run cloner).map fun copied => (.node copied.1, copied.2)
      else some (.unbound, cloner) := by
  rw [cloneSlot]
  by_cases hchild : graph.nodes.contains child
  · simp [hchild]
  · simp [hchild]

section Inputs

variable {go : NodeKey → Cloning α NodeKey} {key : NodeKey} {node : Node α}

/-- The copy of an input of a node is made, if those of the nodes that its inputs are bound to are. -/
theorem copies_cloneSlot (hstart : start.Reached) (hexact : graph.table.Exact)
    (hnode : graph.node? key = some node)
    (hchildren : ∀ child, Slot.node child ∈ node.inputs → graph.nodes.contains child →
      graph.NodeCopies start go child) {slot : Slot} (hslot : slot ∈ node.inputs) :
    graph.Copies start (graph.cloneSlot go slot) (graph.strictlyBelow key) (graph.variablesBelow key)
      fun next copy => next.SlotCopied graph slot copy := by
  intro cloner h
  rcases slot with _ | child | variableKey
  · exact ⟨.unbound, cloner, rfl, h, .refl cloner, .unbound⟩
  · rw [run_cloneSlot_node]
    by_cases hchild : graph.nodes.contains child
    · have hbinds : graph.nodes.Binds key child := ⟨node, hnode, hslot⟩
      obtain ⟨copy, next, hrun, hnext, hextends, hcopy⟩ := hchildren child hslot hchild cloner h
      refine ⟨.node copy, next, by rw [if_pos hchild, hrun]; rfl, hnext, hextends.mono ?_ ?_, .toNode hcopy⟩
      · exact fun other hother => .head' hbinds hother
      · exact variablesBelow_subset hbinds
    · have hdead : graph.node? child = none := by
        rw [Arena.contains, Bool.not_eq_true, Option.isSome_eq_false_iff, Option.isNone_iff_eq_none] at hchild
        exact hchild
      exact ⟨.unbound, cloner, if_neg hchild, h, .refl cloner, .deadNode hdead⟩
  · have hused : variableKey ∈ graph.variablesBelow key := ⟨key, .refl, node, hnode, hslot⟩
    obtain ⟨copy, next, hrun, hnext, hextends, hcopy⟩ :=
      copies_cloneVariable hstart hexact variableKey hused cloner h
    refine ⟨(copy.map .variable).getD .unbound, next, ?_, hnext, hextends, hcopy⟩
    rw [cloneSlot, StateT.run_bind, hrun]
    rfl

/-- The copies of several inputs of a node are made one after the other. -/
theorem copies_mapM_cloneSlot (hstart : start.Reached) (hexact : graph.table.Exact)
    (hnode : graph.node? key = some node)
    (hchildren : ∀ child, Slot.node child ∈ node.inputs → graph.nodes.contains child →
      graph.NodeCopies start go child) {slots : List Slot} (hslots : slots ⊆ node.inputs) :
    graph.Copies start (slots.mapM (graph.cloneSlot go)) (graph.strictlyBelow key) (graph.variablesBelow key)
      fun next copies => List.Forall₂ (next.SlotCopied graph) slots copies := by
  induction slots with
  | nil => exact fun cloner h => ⟨[], cloner, rfl, h, .refl cloner, .nil⟩
  | cons slot slots ih =>
    intro cloner h
    obtain ⟨hslot, hslots⟩ := List.cons_subset.1 hslots
    obtain ⟨copy, mid, hrun, hmid, hextends, hcopy⟩ :=
      copies_cloneSlot hstart hexact hnode hchildren hslot cloner h
    obtain ⟨copies, next, hrun', hnext, hextends', hcopies⟩ := ih hslots mid hmid
    refine ⟨copy :: copies, next, ?_, hnext, hextends.trans hextends', .cons (hcopy.mono hextends') hcopies⟩
    rw [List.mapM_cons, StateT.run_bind, hrun]
    simp [hrun']

end Inputs

/-- The copy of a node that is there is made, with the copies of what is below it. The recursion comes to an end because
    bindings are acyclic: while the inputs of a node are copied, the node itself is not met, and has no copy yet. -/
theorem copies_cloneNode (hacyclic : graph.nodes.Acyclic) (hstart : start.Reached)
    (hexact : graph.table.Exact) {key : NodeKey} (hkey : graph.nodes.contains key) {waiting : List NodeKey}
    (hwaiting : ∀ other ∈ graph.below key, graph.nodes.contains other → other ∈ waiting) :
    graph.NodeCopies start (graph.cloneNode waiting) key := by
  induction key using hacyclic.wellFounded.induction generalizing waiting with
  | _ key ih =>
    intro cloner h
    rw [cloneNode]
    cases hcopy : cloner.nodeKey? key with
    | some copy => exact ⟨copy, cloner, by simp [hcopy], h, .refl cloner, hcopy⟩
    | none =>
      obtain ⟨node, hnode⟩ := Nodes.get?_of_contains hkey
      have hnode : graph.node? key = some node := hnode
      have hchildren : ∀ child, Slot.node child ∈ node.inputs → graph.nodes.contains child →
          graph.NodeCopies start (graph.cloneNode (waiting.erase key)) child := by
        intro child hslot hchild
        have hbinds : graph.nodes.Binds key child := ⟨node, hnode, hslot⟩
        exact ih child hbinds hchild (hacyclic.mem_erase hwaiting hbinds)
      obtain ⟨inputs, next, hrun, hnext, hextends, hinputs⟩ := copies_mapM_cloneSlot hstart hexact hnode
        hchildren (List.Subset.refl node.inputs) cloner h
      -- the node has not been copied with its inputs, for it does not lead to itself
      have hnew : next.nodeKey? key = none := by
        cases hfound : next.nodeKey? key with
        | none => rfl
        | some copy =>
          rcases hextends.newNode key copy hfound with hold | hcycle
          · rw [hcopy] at hold
            cases hold
          · exact absurd hcycle (hacyclic key)
      refine ⟨next.nodes.nextKey, next.insertNode key (node.withInputs inputs), ?_,
        hnext.insertNode hnode hnew hinputs, ?_, ?_⟩
      · simp [hcopy, hnode, hwaiting key .refl hkey, hrun]
      · have hbelow : graph.strictlyBelow key ⊆ graph.below key := fun _ hother => hother.to_reflTransGen
        exact (hextends.mono hbelow fun _ hused => hused).trans (extends_insertNode hnew _ .refl)
      · exact (nodeKey?_insertNode _ _ _ _).trans (if_pos rfl)

/-! ## Clones -/

/-- The clone of a graph that consists of the copies of a cloner. -/
def clonedBy (graph : Graph α) (cloner : Cloner α) : Graph α :=
  { graph with nodes := cloner.nodes, output := graph.output.bind cloner.nodeKey?, table := cloner.table }

/-- A cloner has copied, on a table, the nodes that the output of a graph leads to and the variables that are bound to
    inputs of these. -/
structure CopiedBy (graph : Graph α) (start : VariableTable α) (cloner : Cloner α) : Prop where
  faithful : cloner.Faithful graph start
  output : ∀ key, graph.output = some key → ∃ copy, cloner.nodeKey? key = some copy
  nodes : ∀ key copy, cloner.nodeKey? key = some copy →
    ∃ output, graph.output = some output ∧ key ∈ graph.below output
  variableKeys : ∀ key copy, cloner.variableKey? key = some copy →
    ∃ output, graph.output = some output ∧ key ∈ graph.variablesBelow output

/-- A graph can be cloned on every table that operations lead to. -/
theorem cloneWithVariables?_eq_some (hacyclic : graph.nodes.Acyclic)
    (houtput : ∀ key, graph.output = some key → graph.nodes.contains key) (hexact : graph.table.Exact)
    (hstart : start.Reached) :
    ∃ cloner, graph.cloneWithVariables? start = some (graph.clonedBy cloner) ∧ graph.CopiedBy start cloner := by
  have hnone : ∀ key, (ofTable start).nodeKey? key = none := fun _ => by simp [nodeKey?, ofTable]
  have hnone' : ∀ key, (ofTable start).variableKey? key = none := fun _ => by simp [variableKey?, ofTable]
  have h := faithful_ofTable graph hstart
  cases hkey : graph.output with
  | none =>
    refine ⟨ofTable start, by simp [cloneWithVariables?, clonedBy, hkey], h, ?_, ?_, ?_⟩
    · simp [hkey]
    · simp [hnone]
    · simp [hnone']
  | some output =>
    have hwaiting : ∀ other ∈ graph.below output, graph.nodes.contains other → other ∈ graph.nodes.keys :=
      fun other _ hlive => (Arena.mem_keys _ _).2 hlive
    obtain ⟨copy, cloner, hrun, hcloner, hextends, hcopy⟩ :=
      copies_cloneNode hacyclic hstart hexact (houtput output hkey) hwaiting (ofTable start) h
    refine ⟨cloner, by simp [cloneWithVariables?, clonedBy, hkey, hrun, hcopy], hcloner, ?_, ?_, ?_⟩
    · intro key heq
      obtain rfl := Option.some.inj (hkey.symm.trans heq)
      exact ⟨copy, hcopy⟩
    · intro key keyCopy hfound
      rcases hextends.newNode key keyCopy hfound with hold | hbelow
      · rw [hnone] at hold
        cases hold
      · exact ⟨output, hkey, hbelow⟩
    · intro key keyCopy hfound
      rcases hextends.newVariable key keyCopy hfound with hold | hused
      · rw [hnone'] at hold
        cases hold
      · exact ⟨output, hkey, hused⟩

end Graph
end Armature
