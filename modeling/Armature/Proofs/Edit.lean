import Armature.Graph.Edit

/-!
# Edits that succeed

What an edit of a graph has checked when it succeeds, and the graph that it leads to.
-/

namespace Armature.Graph

variable {α : Type}

theorem bind_eq_ok {β γ : Type} {m : Except Error β} {f : β → Except Error γ} {c : γ} (h : m >>= f = .ok c) :
    ∃ b, m = .ok b ∧ f b = .ok c := by
  cases m with
  | ok b => exact ⟨b, rfl, h⟩
  | error => cases h

theorem checkInput_of_lt {graph : Graph α} {key : NodeKey} {node : Node α} {index : Nat}
    (hnode : graph.node? key = some node) (hindex : index < node.inputs.length) :
    graph.checkInput key index = .ok () := by
  simp [checkInput, hnode, hindex]

/-- Binding an input changes the node of the input alone. -/
theorem node?_bindSlot (graph : Graph α) (key : NodeKey) (index : Nat) (slot : Slot) (other : NodeKey) :
    (graph.bindSlot key index slot).node? other =
      if other = key then (graph.node? other).map (·.bind index slot) else graph.node? other :=
  Arena.get?_modify _ _ _ _

theorem map_eq_ok {β γ : Type} {m : Except Error β} {f : β → γ} {c : γ} (h : m.map f = .ok c) :
    ∃ b, m = .ok b ∧ f b = c := by
  cases m with
  | ok b => exact ⟨b, rfl, Except.ok.inj h⟩
  | error => cases h

theorem setOutput_eq_ok {graph next : Graph α} {output : Option NodeKey} (h : graph.setOutput output = .ok next) :
    (∀ key, output = some key → graph.nodes.contains key) ∧ next = { graph with output } := by
  cases output with
  | none => exact ⟨by simp, (Except.ok.inj h).symm⟩
  | some key =>
    simp only [setOutput] at h
    split at h
    · next hkey =>
      refine ⟨fun other hother => ?_, (Except.ok.inj h).symm⟩
      rw [← Option.some.inj hother]
      exact hkey
    · cases h

theorem bindNode_eq_ok {graph next : Graph α} {key child : NodeKey} {index : Nat}
    (h : graph.bindNode key index child = .ok next) :
    graph.nodes.contains child ∧ graph.checkInput key index = .ok () ∧ graph.dependsOn child key = false ∧
      next = graph.bindSlot key index (.node child) := by
  unfold bindNode at h
  split at h
  · next hchild =>
    obtain ⟨⟨⟩, hcheck, h⟩ := bind_eq_ok h
    by_cases hback : graph.dependsOn child key
    · rw [if_pos hback] at h
      cases h
    · rw [if_neg hback] at h
      exact ⟨hchild, hcheck, by simpa using hback, (Except.ok.inj h).symm⟩
  · cases h

/-- What the binding of an input that is there to a node that is there comes to. -/
theorem bindNode_eq_ite {graph : Graph α} {key child : NodeKey} {index : Nat}
    (hcheck : graph.checkInput key index = .ok ()) (hchild : graph.nodes.contains child) :
    graph.bindNode key index child =
      if graph.dependsOn child key then .error .cycle else .ok (graph.bindSlot key index (.node child)) := by
  rw [bindNode, if_pos hchild, hcheck]
  rfl

/-- A node with no node at its inputs depends on no other. -/
theorem dependsOn_of_children_eq_nil {graph : Graph α} {key other : NodeKey} (h : graph.children key = [])
    (hne : key ≠ other) : graph.dependsOn key other = false := by
  have hvisited : ∀ visited ∈ graph.reachableFrom key, visited = key := by
    refine forall_mem_depthFirst (by simp) ?_
    rintro visited rfl
    simp [h]
  have hother : other ∉ graph.reachableFrom key := fun hmem => hne (hvisited other hmem).symm
  simp [dependsOn, hne, hother]

/-- What the binding of an input that is there to another node that has no node at its inputs comes to. -/
theorem bindNode_of_children_eq_nil {graph : Graph α} {key child : NodeKey} {index : Nat}
    (hcheck : graph.checkInput key index = .ok ()) (hchild : graph.nodes.contains child)
    (h : graph.children child = []) (hne : child ≠ key) :
    graph.bindNode key index child = .ok (graph.bindSlot key index (.node child)) := by
  rw [bindNode_eq_ite hcheck hchild, dependsOn_of_children_eq_nil h hne]
  rfl

theorem bindVariable_eq_ok {graph next : Graph α} {key : NodeKey} {index : Nat} {variableKey : VariableKey}
    (h : graph.bindVariable key index variableKey = .ok next) :
    graph.table.contains variableKey ∧ graph.checkInput key index = .ok () ∧
      next = graph.bindSlot key index (.variable variableKey) := by
  unfold bindVariable at h
  split at h
  · next hvariable =>
    obtain ⟨⟨⟩, hcheck, h⟩ := bind_eq_ok h
    exact ⟨hvariable, hcheck, (Except.ok.inj h).symm⟩
  · cases h

theorem bindNamed_eq_ok {graph next : Graph α} {key : NodeKey} {index : Nat} {name : String}
    (h : graph.bindNamed key index name = .ok next) :
    ∃ variableKey, graph.table.key? name = some variableKey ∧
      graph.bindVariable key index variableKey = .ok next := by
  unfold bindNamed at h
  cases hkey : graph.table.key? name with
  | none => simp [hkey] at h
  | some variableKey => exact ⟨variableKey, rfl, by simpa [hkey] using h⟩

theorem bindValue_eq_ok {graph next : Graph α} {key : NodeKey} {index : Nat} {value : Value α}
    {variableKey : VariableKey} (h : graph.bindValue key index value = .ok (variableKey, next)) :
    graph.checkInput key index = .ok () ∧ variableKey = graph.table.nextKey ∧
      next = (graph.addLocalVariable value).2.bindSlot key index (.variable graph.table.nextKey) := by
  obtain ⟨⟨⟩, hcheck, h⟩ := bind_eq_ok h
  obtain ⟨rfl, rfl⟩ := Prod.mk.inj (Except.ok.inj h)
  exact ⟨hcheck, rfl, rfl⟩

/-- What the binding of an input that is there to a name that is there comes to. -/
theorem bindNamed_of_key? {graph : Graph α} {key : NodeKey} {index : Nat} {name : String} {variableKey : VariableKey}
    (hcheck : graph.checkInput key index = .ok ()) (hkey : graph.table.key? name = some variableKey)
    (hlive : graph.table.contains variableKey) :
    graph.bindNamed key index name = .ok (graph.bindSlot key index (.variable variableKey)) := by
  simp only [bindNamed, hkey, bindVariable, hlive, if_true, hcheck]
  rfl

/-- What the binding of an input that is there to a value comes to. -/
theorem bindValue_of_checkInput {graph : Graph α} {key : NodeKey} {index : Nat} (value : Value α)
    (hcheck : graph.checkInput key index = .ok ()) :
    graph.bindValue key index value = .ok (graph.table.nextKey,
      bindSlot { graph with table := graph.table.insert ⟨none, value⟩ } key index
        (.variable graph.table.nextKey)) := by
  rw [bindValue, hcheck]
  rfl

theorem clearInput_eq_ok {graph next : Graph α} {key : NodeKey} {index : Nat}
    (h : graph.clearInput key index = .ok next) :
    graph.checkInput key index = .ok () ∧ next = graph.bindSlot key index .unbound := by
  obtain ⟨⟨⟩, hcheck, h⟩ := bind_eq_ok h
  exact ⟨hcheck, (Except.ok.inj h).symm⟩

theorem resetInputs_eq_ok {graph next : Graph α} {key : NodeKey} (h : graph.resetInputs key = .ok next) :
    graph.nodes.contains key ∧
      next = { graph with
        nodes := graph.nodes.modify key fun node => { node with inputs := node.inputs.map fun _ => .unbound } } := by
  unfold resetInputs at h
  split at h
  · next hlive => exact ⟨hlive, (Except.ok.inj h).symm⟩
  · cases h

theorem declareVariable_eq_ok {graph next : Graph α} {name : String} {value : Value α}
    {variableKey : VariableKey} (h : graph.declareVariable name value = .ok (variableKey, next)) :
    ∃ table, graph.table.declare name value = .ok (variableKey, table) ∧ next = { graph with table } := by
  obtain ⟨⟨key, table⟩, hdeclare, h⟩ := bind_eq_ok h
  obtain ⟨rfl, rfl⟩ := Prod.mk.inj (Except.ok.inj h)
  exact ⟨table, hdeclare, rfl⟩

/-- What the declaration of a variable comes to. -/
theorem declareVariable_eq_match (graph : Graph α) (name : String) (value : Value α) :
    graph.declareVariable name value =
      match graph.table.key? name with
      | some _ => .error (.duplicateVariable name)
      | none => .ok (graph.table.nextKey, { graph with table := graph.table.insert ⟨some name, value⟩ }) := by
  rw [declareVariable, VariableTable.declare, Std.ExtTreeMap.contains_eq_isSome_getElem?, VariableTable.key?]
  cases graph.table.index[name]? <;> rfl

theorem setVariable_eq_ok {graph next : Graph α} {name : String} {value : Value α}
    (h : graph.setVariable name value = .ok next) :
    ∃ table, graph.table.set name value = .ok table ∧ next = { graph with table } := by
  obtain ⟨table, hset, h⟩ := bind_eq_ok h
  exact ⟨table, hset, (Except.ok.inj h).symm⟩

theorem setVariableKey_eq_ok {graph next : Graph α} {key : VariableKey} {value : Value α}
    (h : graph.setVariableKey key value = .ok next) :
    ∃ table, graph.table.setKey key value = .ok table ∧ next = { graph with table } := by
  obtain ⟨table, hset, h⟩ := bind_eq_ok h
  exact ⟨table, hset, (Except.ok.inj h).symm⟩

end Armature.Graph
