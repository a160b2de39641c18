/-!
Depth-first search in a relation that is given by the successors of each key.

What a search visits is the least set that has what lies on the stack and, with each key, its successors,
as far as they are unvisited when the search begins: `forall_mem_depthFirst` says that nothing else is
visited, `mem_depthFirst_of_mem` and `mem_depthFirst_of_next` that nothing is left out.
-/

namespace Armature

variable {κ : Type} [BEq κ] [LawfulBEq κ]

/-- Depth-first search. The stack holds what is to be visited, the next first; what is not `unvisited` any
    more is passed over. The answer lists what is visited, in order. -/
def depthFirst (next : κ → List κ) (unvisited : List κ) : List κ → List κ
  | [] => []
  | key :: stack =>
    if key ∈ unvisited then key :: depthFirst next (unvisited.erase key) (next key ++ stack)
    else depthFirst next unvisited stack
termination_by stack => (unvisited.length, stack.length)
decreasing_by
  · have := List.length_erase_of_mem ‹key ∈ unvisited›
    have := List.length_pos_of_mem ‹key ∈ unvisited›
    exact Prod.Lex.left _ _ (by omega)
  · exact Prod.Lex.right _ (by simp)

/-- Only unvisited keys are visited. -/
theorem mem_of_mem_depthFirst {next : κ → List κ} {unvisited stack : List κ} {key : κ}
    (h : key ∈ depthFirst next unvisited stack) : key ∈ unvisited := by
  fun_induction depthFirst next unvisited stack with
  | case1 => simp at h
  | case2 unvisited first stack hfirst ih =>
    rcases List.mem_cons.1 h with rfl | h
    · exact hfirst
    · exact List.mem_of_mem_erase (ih h)
  | case3 unvisited first stack hfirst ih => exact ih h

/-- No key is visited twice. -/
theorem nodup_depthFirst {next : κ → List κ} {unvisited stack : List κ} (h : unvisited.Nodup) :
    (depthFirst next unvisited stack).Nodup := by
  fun_induction depthFirst next unvisited stack with
  | case1 => simp
  | case2 unvisited first stack hfirst ih =>
    refine List.nodup_cons.2 ⟨fun hmem => ?_, ih (h.erase _)⟩
    exact h.not_mem_erase (mem_of_mem_depthFirst hmem)
  | case3 unvisited first stack hfirst ih => exact ih h

/-- What holds of the keys on the stack and passes from each key to its successors holds of every key that is
    visited. -/
theorem forall_mem_depthFirst {next : κ → List κ} {unvisited stack : List κ} {p : κ → Prop}
    (hstack : ∀ key ∈ stack, p key) (hnext : ∀ key, p key → ∀ other ∈ next key, p other) :
    ∀ key ∈ depthFirst next unvisited stack, p key := by
  fun_induction depthFirst next unvisited stack with
  | case1 => simp
  | case2 unvisited first stack hfirst ih =>
    have hp : p first := hstack first (by simp)
    have := ih fun key hkey => (List.mem_append.1 hkey).elim (hnext first hp key) fun h =>
      hstack key (by simp [h])
    simpa [hp] using this
  | case3 unvisited first stack hfirst ih => exact ih fun key hkey => hstack key (by simp [hkey])

/-- An unvisited key on the stack is visited. -/
theorem mem_depthFirst_of_mem {next : κ → List κ} {unvisited stack : List κ} {key : κ}
    (hstack : key ∈ stack) (hunvisited : key ∈ unvisited) : key ∈ depthFirst next unvisited stack := by
  fun_induction depthFirst next unvisited stack with
  | case1 => simp at hstack
  | case2 unvisited first stack hfirst ih =>
    by_cases heq : key = first
    · simp [heq]
    · refine List.mem_cons_of_mem _ (ih ?_ ((List.mem_erase_of_ne heq).2 hunvisited))
      simp_all
  | case3 unvisited first stack hfirst ih =>
    refine ih ?_ hunvisited
    rcases List.mem_cons.1 hstack with rfl | h
    · exact absurd hunvisited hfirst
    · exact h

/-- An unvisited successor of a key that is visited is visited. -/
theorem mem_depthFirst_of_next {next : κ → List κ} {unvisited stack : List κ} {key other : κ}
    (hkey : key ∈ depthFirst next unvisited stack) (hother : other ∈ next key)
    (hunvisited : other ∈ unvisited) : other ∈ depthFirst next unvisited stack := by
  fun_induction depthFirst next unvisited stack with
  | case1 => simp at hkey
  | case2 unvisited first stack hfirst ih =>
    by_cases heq : other = first
    · simp [heq]
    · have hleft := (List.mem_erase_of_ne heq).2 hunvisited
      refine List.mem_cons_of_mem _ ?_
      rcases List.mem_cons.1 hkey with rfl | hkey
      · exact mem_depthFirst_of_mem (by simp [hother]) hleft
      · exact ih hkey hleft
  | case3 unvisited first stack hfirst ih => exact ih hkey hunvisited

end Armature
