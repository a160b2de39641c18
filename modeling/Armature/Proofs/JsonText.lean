import Armature.Json.Printer
import Armature.Json.Reader
import Armature.Proofs.Numeral

/-!
# Values read back

Every value is read back from its text (`Json.parse?_toPrettyText`), also if keys are repeated, and strings stand for no
string. The text is split into the tokens of the value (`Json.scan_pretty`), since no token can be mistaken for another
and a numeral is never followed by anything that could belong to it; and from the tokens of a value the reader comes to
the state in which that value is complete, whatever is open around it (`Json.foldlM_tokens`).
-/

namespace Armature.Json

/-- Induction over the items of arrays and the members of objects. -/
theorem induction {p : Json → Prop} (null : p .null) (bool : ∀ b, p (.bool b)) (number : ∀ d, p (.number d))
    (string : ∀ s, p (.string s)) (array : ∀ items, (∀ v ∈ items, p v) → p (.array items))
    (object : ∀ members : List (Option String × Json), (∀ member ∈ members, p member.2) → p (.object members))
    (v : Json) : p v :=
  match v with
  | .null => null
  | .bool b => bool b
  | .number d => number d
  | .string s => string s
  | .array items => array items fun v _ => induction null bool number string array object v
  | .object members => object members fun member _ => induction null bool number string array object member.2
termination_by sizeOf v
decreasing_by
  · next hmem =>
    have := List.sizeOf_lt_of_mem hmem
    simp only [Json.array.sizeOf_spec]
    omega
  · next hmem =>
    have := List.sizeOf_lt_of_mem hmem
    have : sizeOf member = 1 + sizeOf member.1 + sizeOf member.2 := by cases member; rfl
    simp only [Json.object.sizeOf_spec]
    omega

/-! ## Tokens of a value -/

mutual

/-- The tokens that write a value. -/
def tokens : Json → List Token
  | .null => [.null]
  | .bool b => [.bool b]
  | .number d => [.number d]
  | .string s => [.string s]
  | .array items => .openArray :: itemTokens items ++ [.closeArray]
  | .object members => .openObject :: memberTokens members ++ [.closeObject]

/-- The tokens between the brackets of an array. -/
def itemTokens : List Json → List Token
  | [] => []
  | [v] => tokens v
  | v :: rest => tokens v ++ .comma :: itemTokens rest

/-- The tokens between the braces of an object. -/
def memberTokens : List (Option String × Json) → List Token
  | [] => []
  | [(key, v)] => .string key :: .colon :: tokens v
  | (key, v) :: rest => .string key :: .colon :: tokens v ++ .comma :: memberTokens rest

end

/-! ## Strings -/

namespace Token

theorem hexDigit?_digitChar : ∀ d < 16, hexDigit? (Nat.digitChar d) = some d := by decide

theorem unitOfHex?_control {c : Char} (h : c < ' ') :
    unitOfHex? '0' '0' (Nat.digitChar (c.toNat / 16)) (Nat.digitChar (c.toNat % 16)) = some (.char c) := by
  have hlt : c.toNat < 32 := h
  have hzero : hexDigit? '0' = some 0 := by decide
  have hn : c.toNat / 16 * 16 + c.toNat % 16 = c.toNat := Nat.div_add_mod' c.toNat 16
  simp only [unitOfHex?, hzero, hexDigit?_digitChar (c.toNat / 16) (by omega),
    hexDigit?_digitChar (c.toNat % 16) (by omega), Option.bind_eq_bind, Option.bind_some, Nat.zero_mul, Nat.zero_add, hn]
  rw [if_neg (by omega), if_neg (by omega), Char.ofNat_toNat]
  rfl

/-- A character is read back from its text. -/
theorem readUnits?_renderChar (c : Char) (rest : List Char) :
    readUnits? (renderChar c ++ rest) = consUnit (.char c) (readUnits? rest) := by
  unfold renderChar
  split
  all_goals try rfl
  split
  · next h =>
    simp only [List.cons_append, List.nil_append, readUnits?, unitOfHex?_control h, Option.bind_some]
  · next hquote hbackslash _ _ _ _ _ hspace =>
    rw [List.singleton_append, readUnits?, if_neg]
    · rintro (h | h)
      · exact hspace h
      · exact hbackslash h
    all_goals simp_all

theorem readUnits?_flatMap (cs rest : List Char) :
    readUnits? (cs.flatMap renderChar ++ '"' :: rest) = some (cs.map .char, rest) := by
  induction cs with
  | nil => rfl
  | cons c cs ih =>
    rw [List.flatMap_cons, List.append_assoc, readUnits?_renderChar, ih]
    rfl

theorem joinUnits?_map (cs : List Char) : joinUnits? (cs.map .char) = some cs := by
  induction cs with
  | nil => rfl
  | cons c cs ih => simp [joinUnits?, ih]

theorem read?_renderString (s : Option String) (rest : List Char) :
    read? (renderString s ++ rest) = some (.string s, rest) := by
  cases s with
  | none => rfl
  | some s =>
    simp only [renderString, List.cons_append, List.append_assoc, List.nil_append, read?, readUnits?_flatMap,
      Option.map_some, joinUnits?_map, String.ofList_toList]

/-! ## Other tokens -/

theorem read?_render (d : Decimal) {rest : List Char} (hrest : Decimal.Ends rest) :
    read? (d.render ++ rest) = some (.number d, rest) := by
  have hread := d.read?_render hrest
  obtain ⟨c, cs, hrender, hc⟩ := d.exists_render_eq_cons
  rw [hrender, List.cons_append] at hread ⊢
  have hpunctuation : ofPunctuation? c = none := by
    unfold ofPunctuation?
    split
    all_goals first | rfl | exact absurd hc (by decide)
  unfold read?
  split
  case h_5 c' cs' _ _ _ _ heq =>
    obtain ⟨rfl, rfl⟩ := List.cons.inj heq
    rw [hpunctuation, hread]
    rfl
  case h_6 heq => cases heq
  all_goals
    next heq =>
      obtain ⟨rfl, -⟩ := List.cons.inj heq
      exact absurd hc (by decide)

theorem read?_blank {c : Char} (h : isBlank c) (cs : List Char) : read? (c :: cs) = none := by
  simp only [isBlank, Bool.or_eq_true, decide_eq_true_eq] at h
  obtain ((rfl | rfl) | rfl) | rfl := h <;> rfl

theorem scan_blank {c : Char} (h : isBlank c) (cs : List Char) : scan (c :: cs) = scan cs := by
  rw [scan, if_pos h]

theorem scan_newline (depth : Nat) (rest : List Char) : scan (newline depth ++ rest) = scan rest := by
  have hblanks : ∀ n : Nat, scan (List.replicate n ' ' ++ rest) = scan rest := by
    intro n
    induction n with
    | zero => rfl
    | succ n ih => rw [List.replicate_succ, List.cons_append, scan_blank (by decide), ih]
  rw [newline, List.cons_append, scan_blank (by decide), hblanks]

theorem scan_of_read? {cs rest : List Char} {token : Token} (h : read? cs = some (token, rest)) :
    scan cs = (scan rest).map (token :: ·) := by
  cases cs with
  | nil => cases h
  | cons c cs =>
    rw [scan, if_neg fun hblank => by rw [read?_blank hblank] at h; cases h]
    split
    · next hnone => rw [h] at hnone; cases hnone
    · next hsome =>
      obtain ⟨rfl, rfl⟩ := Prod.mk.inj (Option.some.inj (h.symm.trans hsome))
      rfl

end Token

/-! ## Texts -/

/-- What follows a value in a text does not start with anything that could belong to a numeral. -/
theorem ends_newline (depth : Nat) (rest : List Char) : Decimal.Ends (newline depth ++ rest) := by
  rintro _ ⟨⟩
  decide

theorem ends_comma (rest : List Char) : Decimal.Ends (',' :: rest) := by
  rintro _ ⟨⟩
  decide

variable {rest : List Char}

open Token

theorem scan_comma : scan (',' :: rest) = (scan rest).map (.comma :: ·) := scan_of_read? rfl

/-- A value is split into its tokens, inside any text. -/
def SplitsInto (text : List Char) (ts : List Token) : Prop :=
  ∀ rest, Decimal.Ends rest → scan (text ++ rest) = (scan rest).map (ts ++ ·)

theorem splitsInto_of_read? {text : List Char} {token : Token}
    (h : ∀ rest, Decimal.Ends rest → Token.read? (text ++ rest) = some (token, rest)) : SplitsInto text [token] :=
  fun rest hrest => scan_of_read? (h rest hrest)

theorem scan_prettyItems {depth : Nat} {items : List Json} (ih : ∀ v ∈ items, SplitsInto (pretty depth v) (tokens v)) :
    SplitsInto (prettyItems depth items) (itemTokens items) := by
  intro rest hrest
  induction items with
  | nil => simp [prettyItems, itemTokens]
  | cons v items ihItems =>
    obtain ⟨ihFirst, ihRest⟩ := List.forall_mem_cons.1 ih
    cases items with
    | nil => rw [prettyItems, itemTokens, List.append_assoc, scan_newline, ihFirst rest hrest]
    | cons next items =>
      simp only [prettyItems, itemTokens, List.append_assoc, List.cons_append] at ihItems ⊢
      rw [scan_newline, ihFirst _ (ends_comma _), scan_comma, ihItems ihRest]
      simp only [Option.map_map, Function.comp_def]

theorem scan_prettyMembers {depth : Nat} {members : List (Option String × Json)}
    (ih : ∀ member ∈ members, SplitsInto (pretty depth member.2) (tokens member.2)) :
    SplitsInto (prettyMembers depth members) (memberTokens members) := by
  have hcolon (cs : List Char) : scan (':' :: cs) = (scan cs).map (.colon :: ·) := scan_of_read? rfl
  have hmember (key : Option String) (rest : List Char) :
      scan (newline depth ++ (renderString key ++ ':' :: ' ' :: rest)) =
        (scan rest).map fun ts => .string key :: .colon :: ts := by
    rw [scan_newline, scan_of_read? (read?_renderString key _), hcolon, scan_blank (by decide), Option.map_map]
    rfl
  intro rest hrest
  induction members with
  | nil => simp [prettyMembers, memberTokens]
  | cons member members ihMembers =>
    obtain ⟨ihFirst, ihRest⟩ := List.forall_mem_cons.1 ih
    obtain ⟨key, v⟩ := member
    cases members with
    | nil =>
      simp only [prettyMembers, memberTokens, List.append_assoc, List.cons_append]
      rw [hmember key, ihFirst rest hrest, Option.map_map]
      rfl
    | cons next members =>
      simp only [prettyMembers, memberTokens, List.append_assoc, List.cons_append] at ihMembers ⊢
      rw [hmember key, ihFirst _ (ends_comma _), scan_comma, ihMembers ihRest]
      simp only [Option.map_map, Function.comp_def]

/-- The text of a value is split into the tokens of the value. -/
theorem scan_pretty (depth : Nat) (v : Json) : SplitsInto (pretty depth v) (tokens v) := by
  induction v using Json.induction generalizing depth with
  | null => exact splitsInto_of_read? fun rest _ => rfl
  | bool b => cases b <;> exact splitsInto_of_read? fun rest _ => rfl
  | number d => exact splitsInto_of_read? fun rest hrest => Token.read?_render d hrest
  | string s => exact splitsInto_of_read? fun rest _ => read?_renderString s rest
  | array items ih =>
    intro rest hrest
    have hopen (cs : List Char) : scan ('[' :: cs) = (scan cs).map (.openArray :: ·) := scan_of_read? rfl
    have hclose : scan (']' :: rest) = (scan rest).map (.closeArray :: ·) := scan_of_read? rfl
    have hitems : SplitsInto (prettyItems (depth + 1) items) (itemTokens items) :=
      scan_prettyItems fun v hv => ih v hv (depth + 1)
    cases items with
    | nil =>
      simp only [pretty, tokens, itemTokens, List.cons_append, List.nil_append, hopen, hclose, Option.map_map,
        Function.comp_def]
    | cons v items =>
      simp only [pretty, tokens, List.cons_append, List.append_assoc, List.nil_append]
      rw [hopen, hitems _ (ends_newline _ _), scan_newline, hclose]
      simp only [Option.map_map, Function.comp_def]
  | object members ih =>
    intro rest hrest
    have hopen (cs : List Char) : scan ('{' :: cs) = (scan cs).map (.openObject :: ·) := scan_of_read? rfl
    have hclose : scan ('}' :: rest) = (scan rest).map (.closeObject :: ·) := scan_of_read? rfl
    have hmembers : SplitsInto (prettyMembers (depth + 1) members) (memberTokens members) :=
      scan_prettyMembers fun member hmember => ih member hmember (depth + 1)
    cases members with
    | nil =>
      simp only [pretty, tokens, memberTokens, List.cons_append, List.nil_append, hopen, hclose, Option.map_map,
        Function.comp_def]
    | cons member members =>
      simp only [pretty, tokens, List.cons_append, List.append_assoc, List.nil_append]
      rw [hopen, hmembers _ (ends_newline _ _), scan_newline, hclose]
      simp only [Option.map_map, Function.comp_def]

/-! ## Reading values -/

open ReadState

/-- Wherever a value may stand, the reader comes from its tokens to the state in which it is complete. -/
def Completes (v : Json) : Prop :=
  ∀ stack ts, (tokens v ++ ts).foldlM step? (.value stack) = ts.foldlM step? (.complete v stack)

/-- Where an array has just been opened, an item is read as after a comma. -/
theorem foldlM_firstItem {items : List Json} (hne : items ≠ []) (stack : List OpenValue) (ts : List Token) :
    (itemTokens items ++ ts).foldlM step? (.firstItem stack) =
      (itemTokens items ++ ts).foldlM step? (.value (.item [] :: stack)) := by
  have hvalue (v : Json) (ts : List Token) :
      (tokens v ++ ts).foldlM step? (.firstItem stack) = (tokens v ++ ts).foldlM step? (.value (.item [] :: stack)) := by
    cases v <;> rw [tokens] <;> rfl
  match items with
  | [v] => rw [itemTokens, hvalue]
  | v :: next :: items => simp only [itemTokens, List.append_assoc, hvalue]

/-- Where an object has just been opened, a key is read as after a comma. -/
theorem foldlM_firstKey {members : List (Option String × Json)} (hne : members ≠ []) (stack : List OpenValue)
    (ts : List Token) :
    (memberTokens members ++ ts).foldlM step? (.firstKey stack) =
      (memberTokens members ++ ts).foldlM step? (.nextKey [] stack) := by
  match members with
  | [(key, v)] => rw [memberTokens]; rfl
  | (key, v) :: next :: members => simp only [memberTokens, List.cons_append, List.foldlM_cons, step?]

theorem foldlM_itemTokens {items : List Json} (ih : ∀ v ∈ items, Completes v) (hne : items ≠ [])
    (before : List Json) (stack : List OpenValue) (ts : List Token) :
    (itemTokens items ++ .closeArray :: ts).foldlM step? (.value (.item before :: stack)) =
      ts.foldlM step? (.complete (.array (before.reverse ++ items)) stack) := by
  induction items generalizing before with
  | nil => exact absurd rfl hne
  | cons v items ihItems =>
    obtain ⟨ihFirst, ihRest⟩ := List.forall_mem_cons.1 ih
    cases items with
    | nil =>
      rw [itemTokens, ihFirst, List.foldlM_cons]
      simp [step?]
    | cons next items =>
      simp only [itemTokens, List.append_assoc, List.cons_append] at ihItems ⊢
      rw [ihFirst, List.foldlM_cons]
      simp only [step?, Option.bind_eq_bind, Option.bind_some]
      rw [ihItems ihRest (List.cons_ne_nil _ _) (v :: before)]
      simp

theorem foldlM_memberTokens {members : List (Option String × Json)} (ih : ∀ member ∈ members, Completes member.2)
    (hne : members ≠ []) (before : List (Option String × Json)) (stack : List OpenValue) (ts : List Token) :
    (memberTokens members ++ .closeObject :: ts).foldlM step? (.nextKey before stack) =
      ts.foldlM step? (.complete (.object (before.reverse ++ members)) stack) := by
  induction members generalizing before with
  | nil => exact absurd rfl hne
  | cons member members ihMembers =>
    obtain ⟨ihFirst, ihRest⟩ := List.forall_mem_cons.1 ih
    obtain ⟨key, v⟩ := member
    cases members with
    | nil =>
      rw [memberTokens]
      simp only [List.cons_append, List.foldlM_cons, step?, Option.bind_eq_bind, Option.bind_some]
      rw [ihFirst, List.foldlM_cons]
      simp [step?]
    | cons next members =>
      simp only [memberTokens, List.cons_append, List.append_assoc] at ihMembers ⊢
      simp only [List.foldlM_cons, step?, Option.bind_eq_bind, Option.bind_some]
      rw [ihFirst, List.foldlM_cons]
      simp only [step?, Option.bind_eq_bind, Option.bind_some]
      rw [ihMembers ihRest (List.cons_ne_nil _ _) ((key, v) :: before)]
      simp

theorem foldlM_tokens (v : Json) : v.Completes := by
  induction v using Json.induction with
  | null => exact fun stack ts => rfl
  | bool b => exact fun stack ts => rfl
  | number d => exact fun stack ts => rfl
  | string s => exact fun stack ts => rfl
  | array items ih =>
    intro stack ts
    have hopen (ts : List Token) :
        (Token.openArray :: ts).foldlM step? (.value stack) = ts.foldlM step? (.firstItem stack) := rfl
    rw [tokens, List.cons_append, List.cons_append, List.append_assoc, List.singleton_append, hopen]
    by_cases hitems : items = []
    · subst hitems
      rfl
    · rw [foldlM_firstItem hitems, foldlM_itemTokens ih hitems, List.reverse_nil, List.nil_append]
  | object members ih =>
    intro stack ts
    have hopen (ts : List Token) :
        (Token.openObject :: ts).foldlM step? (.value stack) = ts.foldlM step? (.firstKey stack) := rfl
    rw [tokens, List.cons_append, List.cons_append, List.append_assoc, List.singleton_append, hopen]
    by_cases hmembers : members = []
    · subst hmembers
      rfl
    · rw [foldlM_firstKey hmembers, foldlM_memberTokens ih hmembers, List.reverse_nil, List.nil_append]

/-- A value is read back from its text. -/
theorem parse?_toPrettyText (v : Json) : parse? v.toPrettyText = some v := by
  have hscan : scan (pretty 0 v) = some (tokens v) := by
    have := scan_pretty 0 v [] (by simp [Decimal.Ends])
    simpa [scan] using this
  have hread := foldlM_tokens v [] []
  rw [List.append_nil] at hread
  rw [parse?, toPrettyText, String.toList_ofList, hscan, Option.bind_some, ofTokens?, hread]
  rfl

end Armature.Json
