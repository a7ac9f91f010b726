import FormatExpr.Json.Text
import FormatExpr.Proofs.JsonLibrary

/-!
# The text of JSON values

The text of a JSON value is one of the layouts of a tree, and the tree denotes what is left of the
value once it is written (`Json.Value.exists_writtenAs`), whatever the depth of the value.
-/

namespace FormatExpr.Json

/-- The numeral is read as the number. -/
def Numeral.ReadAs (n : Numeral) (m : Number) : Prop :=
  n.value? = some m

/-! ### Strings -/

namespace Token

/-- How a character is spelled in the text of a string. -/
def spelling (c : Char) : Spelling :=
  if escapeLetter? c = none ∧ c.toNat < 0x20 then .unit c.toNat else .char c

lemma escape?_of_escapeLetter? {c letter : Char} (h : escapeLetter? c = some letter) :
    escape? letter = some c := by
  rw [escapeLetter?.eq_def] at h
  split at h <;> cases h <;> rfl

lemma hexDigit?_hexDigit {n : Nat} (h : n < 16) : hexDigit? (hexDigit n) = some n := by
  have hall : ∀ d < 16, hexDigit? (hexDigit d) = some d := by decide
  exact hall n h

lemma hexUnit?_of_lt {n : Nat} (h : n < 0x100) :
    hexUnit? '0' '0' (hexDigit (n / 16)) (hexDigit (n % 16)) = some n := by
  have hzero : hexDigit? '0' = some 0 := by decide
  have hhigh := hexDigit?_hexDigit (show n / 16 < 16 by omega)
  have hlow := hexDigit?_hexDigit (show n % 16 < 16 by omega)
  simp only [hexUnit?, hzero, hhigh, hlow, Option.bind_eq_bind, Option.bind_some,
    Option.some.injEq]
  omega

lemma spellingLayout_escaped (c : Char) : Tree.SpellingLayout (spelling c) (escaped c) := by
  rw [escaped, spelling]
  cases hescape : escapeLetter? c with
  | some letter => exact .escape (escape?_of_escapeLetter? hescape)
  | none =>
    by_cases hlow : c.toNat < 0x20
    · rw [if_pos ⟨rfl, hlow⟩]
      dsimp only
      rw [if_pos hlow]
      exact .unit (hexUnit?_of_lt (show c.toNat < 0x100 by omega))
    · rw [if_neg fun h => hlow h.2]
      dsimp only
      rw [if_neg hlow]
      refine .char hlow ?_ ?_ <;> rintro rfl <;> cases hescape

lemma spellingLayouts_escaped (cs : List Char) :
    Tree.SpellingLayouts (cs.map spelling) (cs.flatMap escaped) := by
  induction cs with
  | nil => exact .nil
  | cons c cs ih => exact .cons (spellingLayout_escaped c) ih

/-- A code unit outside of the surrogates is a character by itself. -/
lemma join_unit {u : Nat} (h : u < 0xD800) (later : List Spelling) :
    join (.unit u :: later) = (join later).map (Char.ofNat u :: ·) := by
  have hhigh : isHigh u = false := by
    simp only [isHigh, Bool.and_eq_false_iff, decide_eq_false_iff_not]
    omega
  have hlow : isLow u = false := by
    simp only [isLow, Bool.and_eq_false_iff, decide_eq_false_iff_not]
    omega
  cases later with
  | nil => simp [join, hhigh, hlow]
  | cons s later => cases s <;> simp [join, hhigh, hlow]

lemma join_spellings (cs : List Char) : join (cs.map spelling) = some cs := by
  induction cs with
  | nil => rfl
  | cons c cs ih =>
    rw [List.map_cons, spelling]
    split_ifs with hlow
    · rw [join_unit (by omega), ih, Option.map_some, Char.ofNat_toNat]
    · rw [join, ih, Option.map_some]

end Token

/-! ### Values -/

namespace Value

/-- The text of a string is a layout of the spellings that the string is written with. -/
lemma stringLayout_quotedText (s : String) :
    Tree.StringLayout (s.toList.map Token.spelling) (quotedText s) :=
  .mk (Token.spellingLayouts_escaped s.toList)

lemma exists_layout_number (n : Number) :
    ∃ x : Tree, x.Layout (number n).text ∧ x.Denotes Numeral.ReadAs (number n).written := by
  cases n with
  | integer i =>
    obtain ⟨numeral, hlayout, hvalue⟩ := Numeral.exists_layout_integer i
    exact ⟨.number numeral, .number hlayout, .number hvalue⟩
  | float x =>
    rw [written, text]
    split_ifs with hx
    · obtain ⟨numeral, hlayout, hvalue⟩ := Numeral.exists_layout_float hx
      exact ⟨.number numeral, .number hlayout, .number hvalue⟩
    · rw [numberText, if_neg hx]
      exact ⟨.null, .null, .null⟩

lemma exists_itemLayouts {v : Value} {items : List Value}
    (h : ∀ w ∈ v :: items, ∃ x : Tree, x.Layout w.text ∧ x.Denotes Numeral.ReadAs w.written) :
    ∃ xs, Tree.ItemLayouts xs (itemsText (v :: items)) ∧
      List.Forall₂ (Tree.Denotes Numeral.ReadAs) xs (writtenItems (v :: items)) := by
  have hnil : Tree.IsSpaceRun [] := List.forall_mem_nil _
  induction items generalizing v with
  | nil =>
    obtain ⟨x, hx, hdenotes⟩ := h v List.mem_cons_self
    have hlayout := Tree.ItemLayouts.last hnil hx hnil
    rw [List.nil_append, List.append_nil] at hlayout
    exact ⟨[x], hlayout, .cons hdenotes .nil⟩
  | cons w items ih =>
    obtain ⟨⟨x, hx, hdenotes⟩, hitems⟩ := List.forall_mem_cons.1 h
    obtain ⟨xs, hxs, hrest⟩ := ih hitems
    have hlayout := Tree.ItemLayouts.cons hnil hx hnil hxs
    rw [List.nil_append, List.append_nil] at hlayout
    exact ⟨x :: xs, hlayout, .cons hdenotes hrest⟩

lemma isFor_quotedText (key : String) (x : Tree) :
    Tree.IsFor (key.toList.map Token.spelling, x) key :=
  Token.join_spellings key.toList

lemma exists_memberLayouts {m : String × Value} {members : List (String × Value)}
    (h : ∀ w ∈ m :: members, ∃ x : Tree, x.Layout w.2.text ∧
      x.Denotes Numeral.ReadAs w.2.written) :
    ∃ xs, Tree.MemberLayouts xs (membersText (m :: members)) ∧
      List.Forall₂ (fun w v => Tree.IsFor w v.1) xs (writtenMembers (m :: members)) ∧
      List.Forall₂ (fun w v => Tree.Denotes Numeral.ReadAs w.2 v.2) xs
        (writtenMembers (m :: members)) := by
  have hnil : Tree.IsSpaceRun [] := List.forall_mem_nil _
  induction members generalizing m with
  | nil =>
    obtain ⟨key, v⟩ := m
    obtain ⟨x, hx, hdenotes⟩ := h (key, v) List.mem_cons_self
    have hlayout := Tree.MemberLayouts.last hnil (stringLayout_quotedText key) hnil hnil hx hnil
    simp only [List.nil_append, List.append_nil] at hlayout
    exact ⟨_, hlayout, .cons (isFor_quotedText key x) .nil, .cons hdenotes .nil⟩
  | cons w members ih =>
    obtain ⟨key, v⟩ := m
    obtain ⟨⟨x, hx, hdenotes⟩, hmembers⟩ := List.forall_mem_cons.1 h
    obtain ⟨xs, hxs, hkeys, hrest⟩ := ih hmembers
    have hlayout := Tree.MemberLayouts.cons hnil (stringLayout_quotedText key) hnil hnil hx hnil hxs
    simp only [List.nil_append, List.append_nil] at hlayout
    have htext : membersText ((key, v) :: w :: members)
        = quotedText key ++ ':' :: (v.text ++ ',' :: membersText (w :: members)) := by
      rw [membersText, List.append_assoc, List.cons_append]
    rw [htext]
    exact ⟨_, hlayout, .cons (isFor_quotedText key x) hkeys, .cons hdenotes hrest⟩

/-- The text of a value is a layout of a tree that denotes what is left of the value. -/
theorem exists_layout (v : Value) :
    ∃ x : Tree, x.Layout v.text ∧ x.Denotes Numeral.ReadAs v.written := by
  induction v with
  | null => exact ⟨.null, .null, .null⟩
  | boolean b => exact ⟨.boolean b, .boolean b, .boolean b⟩
  | number n => exact exists_layout_number n
  | string s =>
    exact ⟨_, .string (stringLayout_quotedText s), .string (Token.join_spellings s.toList)⟩
  | list items ih =>
    cases items with
    | nil => exact ⟨.list [], .emptyList (List.forall_mem_nil _), .list .nil⟩
    | cons v items =>
      obtain ⟨xs, hxs, hdenotes⟩ := exists_itemLayouts ih
      exact ⟨.list xs, .list hxs, .list hdenotes⟩
  | map members ih =>
    cases members with
    | nil => exact ⟨.map [], .emptyMap (List.forall_mem_nil _), .map .nil .nil⟩
    | cons m members =>
      obtain ⟨xs, hxs, hkeys, hdenotes⟩ := exists_memberLayouts ih
      exact ⟨.map xs, .map hxs, .map hkeys hdenotes⟩

/-- What is written for a value is read back, but for the numbers that are not finite. -/
theorem exists_writtenAs (v : Value) :
    ∃ x : Tree, x.WrittenAs (String.ofList v.text) ∧ x.Denotes Numeral.ReadAs v.written := by
  have hnil : Tree.IsSpaceRun [] := List.forall_mem_nil _
  obtain ⟨x, hlayout, hdenotes⟩ := v.exists_layout
  refine ⟨x, .mk hnil hlayout hnil ?_, hdenotes⟩
  rw [String.toList_ofList, List.nil_append, List.append_nil]

end Value

end FormatExpr.Json
