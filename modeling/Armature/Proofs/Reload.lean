import Armature.Proofs.FloatText

/-!
# Loading, saving and loading again

A description that a text was read for is read back from its own text exactly if all its floats are finite; otherwise its
text is refused (`Description.ofText_reload`). A text can write a float that is not finite: a numeral in the range of the
doubles that is beyond that of the floats is read as infinite, and what is infinite is written as null.
-/

namespace Armature

/-! ## What is read -/

namespace Json

variable {β : Type} {read? : Json → Option β} {p : β → Prop}

theorem forall_of_asList? (hread : ∀ v x, read? v = some x → p x) {v : Json} {xs : List β}
    (h : v.asList? read? = some xs) : ∀ x ∈ xs, p x := by
  unfold asList? at h
  split at h
  · next items =>
    induction items generalizing xs with
    | nil =>
      obtain rfl := Option.some.inj h
      simp
    | cons item items ih =>
      simp only [List.mapM_cons, Option.bind_eq_bind, Option.bind_eq_some_iff] at h
      obtain ⟨x, hx, rest, hrest, h⟩ := h
      obtain rfl := Option.some.inj h
      exact List.forall_mem_cons.2 ⟨hread item x hx, ih hrest⟩
  · cases h

theorem forall_of_orNull? (hread : ∀ v x, read? v = some x → p x) {v : Json} {x : Option β}
    (h : v.orNull? read? = some x) : ∀ y ∈ x, p y := by
  unfold orNull? at h
  split at h
  · obtain rfl := Option.some.inj h
    simp
  · obtain ⟨y, hy, rfl⟩ := Option.map_eq_some_iff.1 h
    rintro _ ⟨⟩
    exact hread _ y hy

theorem forall_of_list? (hread : ∀ v x, read? v = some x → p x) {field : Option Json} {xs : List β}
    (h : withDefault (asList? read?) [] field = some xs) : ∀ x ∈ xs, p x := by
  cases field with
  | none =>
    obtain rfl := Option.some.inj h
    simp
  | some v => exact forall_of_asList? hread h

theorem forall_of_optional? (hread : ∀ v x, read? v = some x → p x) {field : Option Json} {x : Option β}
    (h : withDefault (orNull? read?) none field = some x) : ∀ y ∈ x, p y := by
  cases field with
  | none =>
    obtain rfl := Option.some.inj h
    simp
  | some v => exact forall_of_orNull? hread h

theorem lt_of_asWord? (v : Json) (n : Nat) (h : v.asWord? = some n) : n < UInt64.size := by
  unfold asWord? at h
  split at h
  · unfold Decimal.toNat? at h
    grind
  · cases h

end Json

section

variable {read : FloatReader}

/-- The place of an input that is read fits a machine word. -/
theorem InputDescription.place_lt (v : Json) (input : InputDescription Binary32) (h : ofJson? read v = some input) :
    ∀ n ∈ input.place?, n < UInt64.size := by
  unfold ofJson? at h
  split at h
  · obtain ⟨place, hplace, rfl⟩ := Option.map_eq_some_iff.1 h
    rintro _ ⟨⟩
    exact Json.lt_of_asWord? _ place hplace
  all_goals first
    | cases h
    | (obtain ⟨_, -, rfl⟩ := Option.map_eq_some_iff.1 h; simp [place?])

theorem NodeDescription.places_lt (v : Json) (node : NodeDescription Binary32) (h : ofJson? read v = some node) :
    ∀ n ∈ node.places, n < UInt64.size := by
  obtain ⟨fields, -, h⟩ := Option.bind_eq_some_iff.1 h
  split at h
  · obtain ⟨kind, -, h⟩ := Option.bind_eq_some_iff.1 h
    obtain ⟨inputs, hinputs, h⟩ := Option.bind_eq_some_iff.1 h
    obtain rfl := Option.some.inj h
    have hall := Json.forall_of_list? (p := fun input => ∀ given ∈ input, ∀ n ∈ given.place?, n < UInt64.size)
      (fun _ _ => Json.forall_of_orNull? InputDescription.place_lt) hinputs
    intro n hn
    obtain ⟨given, hgiven, hplace⟩ := List.mem_filterMap.1 hn
    obtain ⟨input, hinput, hsome⟩ := List.mem_filterMap.1 hgiven
    exact hall input hinput given hsome n hplace
  · cases h

theorem Description.places_lt (v : Json) (d : Description Binary32) (h : ofJson? read v = some d) :
    ∀ n ∈ d.places, n < UInt64.size := by
  obtain ⟨fields, -, h⟩ := Option.bind_eq_some_iff.1 h
  split at h
  · obtain ⟨declarations, -, h⟩ := Option.bind_eq_some_iff.1 h
    obtain ⟨nodes, hnodes, h⟩ := Option.bind_eq_some_iff.1 h
    obtain ⟨output, houtput, h⟩ := Option.bind_eq_some_iff.1 h
    obtain rfl := Option.some.inj h
    have hall := Json.forall_of_list? NodeDescription.places_lt hnodes
    intro n hn
    rcases List.mem_append.1 hn with hn | hn
    · obtain ⟨node, hnode, hplace⟩ := List.mem_flatMap.1 hn
      exact hall node hnode n hplace
    · exact Json.forall_of_optional? Json.lt_of_asWord? houtput n (Option.mem_toList.1 hn)
  · cases h

end

namespace Description

theorem ofText_eq_ok {text : String} {d : Description Binary32} :
    ofText text = .ok d ↔ (Json.parse? text).bind (ofJson? Decimal.toBinary32?) = some d := by
  rw [ofText, ofTextBy]
  split
  · next heq => rw [heq, Except.ok.injEq, Option.some.injEq]
  · next heq => simp [heq]

/-- Loading, saving and loading again: a description that was read is read back exactly if all its floats are finite. With
    any other float, which is written as null, the text is refused. -/
theorem ofText_reload {text : String} {d : Description Binary32} (h : ofText text = .ok d) :
    (ofText d.toText = .ok d ↔ ∀ x ∈ d.floats, x.isFinite) ∧
      ((∃ x ∈ d.floats, x.isFinite = false) → ofText d.toText = .error .malformedText) := by
  obtain ⟨v, -, hd⟩ := Option.bind_eq_some_iff.1 (ofText_eq_ok.1 h)
  have hrefused : (∃ x ∈ d.floats, x.isFinite = false) → ofText d.toText = .error .malformedText := by
    rintro ⟨x, hx, hinfinite⟩
    rw [ofText, ofTextBy, toText, Json.parse?_toPrettyText, Option.bind_some,
      ofJson?_toJson_eq_none hx (Binary32.unreadable hinfinite)]
  refine ⟨⟨fun hreload x hx => ?_, fun hfinite => ?_⟩, hrefused⟩
  · by_contra hnot
    rw [hrefused ⟨x, hx, Bool.eq_false_iff.2 hnot⟩] at hreload
    cases hreload
  · have hread : ∀ x ∈ d.floats, (Json.ofFloat x).asFloatBy? Decimal.toBinary32? = some (id x) :=
      fun x hx => Binary32.readsBack_iff.2 (hfinite x hx)
    rw [ofText, ofTextBy_toText (places_lt v d hd) hread, map_id]

/-- A text with members in another order, an unknown one, records as arrays and fields left out. -/
def lax : String :=
  "\x7b\"extra\": [1e999, \"\\ud800\"], \"output\": 1, \"nodes\": [[\"Blend\", [\x7b\"Node\": 1\x7d, null]], " ++
    "\x7b\"kind\": \x7b\"Float\": \x7b\"Sin\": null\x7d\x7d\x7d], \"variables\": [[\"a\", \x7b\"Float\": 1E-45\x7d]]\x7d"

theorem ofText_reload_lax : ∃ d, ofText lax = .ok d ∧ d.floats = [⟨1⟩] ∧ ofText d.toText = .ok d := by
  have hd : ofText lax =
      .ok ⟨[⟨"a", .float ⟨1⟩⟩], [⟨.blend, [some (.node 1), none]⟩, ⟨.float .sin, []⟩], some 1⟩ :=
    ofText_eq_ok.2 (by decide +kernel)
  exact ⟨_, hd, rfl, (ofText_reload hd).1.2 (by decide)⟩

/-- A numeral beyond the range of the floats is read, but the text of what was read is refused. -/
theorem not_reload_overflow : ∃ d,
    ofText "\x7b\"variables\":[\x7b\"name\":\"x\",\"value\":\x7b\"Float\":1e39\x7d\x7d]\x7d" = .ok d ∧
      ofText d.toText = .error .malformedText := by
  refine ⟨⟨[⟨"x", .float (.infinity false)⟩], [], none⟩, ofText_eq_ok.2 (by decide +kernel), ?_⟩
  rw [ofText, ofTextBy, toText, Json.parse?_toPrettyText]
  decide +kernel

end Description

end Armature
