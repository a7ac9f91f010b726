import FormatExpr.Proofs.Nesting

/-!
# The grammar of expressions

A text is read as an expression exactly when it is the text of a well-formed one: an identifier,
or an identifier and a nested body between parentheses. `Unclosed` is the invariant behind this:
what the reader of a body has left to read fits what it has left open.
-/

namespace FormatExpr

namespace Expression

/-- The text of an expression. -/
def text : Expression → List Char
  | ⟨name, none⟩ => name.toList
  | ⟨name, some body⟩ => name.toList ++ callOpen :: body.toList ++ [callClose]

/-- The name is an identifier, and the argument text is nested. -/
structure WellFormed (e : Expression) : Prop where
  name : isIdentifier e.name.toList = true
  arguments : ∀ body, e.arguments = some body → Nested callOpen callClose body.toList

/-! ### Bodies of calls -/

/-- What may follow in a body after `depth` parentheses and the quote character have been left
open. -/
abbrev BodyRest : Nat → Option Char → List Char → Prop :=
  Unclosed callOpen callClose (Nested callOpen callClose)

/-- What is read as a body fits what was left open, and its parenthesis follows it. -/
lemma bodyRest_of_readBody {text body rest : List Char} {depth column : Nat}
    {quote : Option OpenQuote} (h : readBody depth quote column text = .ok (body, rest)) :
    text = body ++ callClose :: rest ∧ BodyRest depth (quote.map OpenQuote.mark) body := by
  induction text generalizing depth quote column body with
  | nil => simp [readBody] at h
  | cons c cs ih =>
    -- the step that reads `c` puts it in front of the body read from `cs`
    have step : ∀ {depth' quote'}, (readBody depth' quote' (column + 1) cs).map (prepend [c])
        = .ok (body, rest) → ∃ later, body = c :: later ∧ cs = later ++ callClose :: rest ∧
          BodyRest depth' (quote'.map OpenQuote.mark) later := by
      intro depth' quote' h
      cases hs : readBody depth' quote' (column + 1) cs with
      | error e => simp [hs, Except.map] at h
      | ok r =>
        obtain ⟨later, rest'⟩ := r
        simp only [hs, Except.map, prepend, List.singleton_append, Except.ok.injEq,
          Prod.mk.injEq] at h
        obtain ⟨rfl, rfl⟩ := h
        exact ⟨later, rfl, ih hs⟩
    by_cases hclose : quote = none ∧ c = callClose
    · obtain ⟨rfl, rfl⟩ := hclose
      cases depth with
      | zero =>
        rw [readBody_close_zero] at h
        simp only [Except.ok.injEq, Prod.mk.injEq] at h
        obtain ⟨rfl, rfl⟩ := h
        exact ⟨rfl, .last .nil⟩
      | succ depth =>
        rw [readBody_close_succ] at h
        obtain ⟨later, rfl, rfl, hb⟩ := step h
        exact ⟨rfl, hb.cons_close⟩
    · by_cases hopen : quote = none ∧ c = callOpen
      · obtain ⟨rfl, rfl⟩ := hopen
        rw [readBody_open] at h
        obtain ⟨later, rfl, rfl, hb⟩ := step h
        exact ⟨rfl, hb.cons_open (Nested.nestedTop _ _)⟩
      · have hc : quote = none → c ≠ callOpen ∧ c ≠ callClose := by
          intro hn
          constructor
          · intro hc
            exact hopen ⟨hn, hc⟩
          · intro hc
            exact hclose ⟨hn, hc⟩
        rw [readBody_other hc] at h
        obtain ⟨later, rfl, rfl, hb⟩ := step h
        refine ⟨rfl, hb.cons_other (Nested.nestedTop _ _) hc ?_⟩
        intro hn hq _ cs hcs
        exact .plain hq (hc hn).1 (hc hn).2 hcs

/-- The body of a call is a nested text up to the parenthesis that closes the call. -/
theorem readBody_eq_ok_iff {column : Nat} {text body rest : List Char} :
    readBody 0 none column text = .ok (body, rest) ↔
      text = body ++ callClose :: rest ∧ Nested callOpen callClose body := by
  constructor
  · intro h
    obtain ⟨htext, hb⟩ := bodyRest_of_readBody h
    refine ⟨htext, ?_⟩
    cases hb with
    | last h => exact h
  · rintro ⟨rfl, h⟩
    rw [readBody_nested_append h, readBody_close_zero]
    simp [Except.map, prepend]

lemma readCall_eq_ok_iff {opening : Nat} {cs body : List Char} :
    readCall opening cs = .ok body ↔
      cs = body ++ [callClose] ∧ Nested callOpen callClose body := by
  rw [← @readBody_eq_ok_iff (opening + 1), readCall]
  split <;> simp_all

/-! ### Names -/

lemma isIdentifier_cons_takeWhile {first : Char} (h : first.isAlpha = true) (later : List Char) :
    isIdentifier (first :: later.takeWhile Char.isAlphanum) = true := by
  simp [isIdentifier, h]

/-- An identifier is read up to the first character that cannot belong to it. -/
lemma span_identifier {name rest : List Char} (hn : isIdentifier name = true)
    (hr : ∀ c ∈ rest.head?, c.isAlphanum = false) :
    ∃ first later, name ++ rest = first :: later ∧ first.isAlpha = true ∧
      first :: later.takeWhile Char.isAlphanum = name ∧ later.dropWhile Char.isAlphanum = rest := by
  cases name with
  | nil => simp [isIdentifier] at hn
  | cons first name =>
    simp only [isIdentifier, Bool.and_eq_true, List.all_eq_true] at hn
    refine ⟨first, name ++ rest, rfl, hn.1, ?_, ?_⟩
    · rw [List.takeWhile_append_of_pos hn.2]
      cases rest with
      | nil => simp
      | cons c cs => simp [hr c (by simp)]
    · rw [List.dropWhile_append_of_pos hn.2]
      cases rest with
      | nil => simp
      | cons c cs => simp [hr c (by simp)]

/-! ### Expressions -/

/-- What follows an identifier and a parenthesis is read as the rest of a call. -/
lemma ofText_identifier_append {name : List Char} (hname : isIdentifier name = true)
    (cs : List Char) :
    ofText (String.ofList (name ++ callOpen :: cs))
      = (readCall (name.length + 1) cs).map fun body =>
        ⟨String.ofList name, some (String.ofList body)⟩ := by
  obtain ⟨first, later, hcons, ha, htake, hdrop⟩ :=
    @span_identifier _ (callOpen :: cs) hname (by simp; decide)
  simp only [ofText, String.toList_ofList, hcons, ha, if_true, hdrop, htake]

lemma wellFormed_of_ofText {text : String} {e : Expression} (h : ofText text = .ok e) :
    text.toList = e.text ∧ e.WellFormed := by
  rw [ofText] at h
  split at h
  · simp at h
  · rename_i first later htext
    have hspan := List.takeWhile_append_dropWhile (p := Char.isAlphanum) (l := later)
    split at h
    · rename_i ha
      have hname := isIdentifier_cons_takeWhile ha later
      dsimp only at h
      generalize List.takeWhile Char.isAlphanum later = word at h hname hspan
      split at h
      · rename_i hrest
        simp only [Except.ok.injEq] at h
        subst h
        rw [hrest, List.append_nil] at hspan
        refine ⟨?_, ?_, ?_⟩
        · simp [Expression.text, htext, hspan]
        · simpa using hname
        · simp
      · rename_i c cs hrest
        rw [hrest] at hspan
        split at h
        · rename_i hc
          subst hc
          cases hcall : readCall ((first :: word).length + 1) cs with
          | error e =>
            rw [hcall] at h
            cases h
          | ok body =>
            obtain ⟨rfl, hbody⟩ := readCall_eq_ok_iff.1 hcall
            simp only [hcall, Except.map, Except.ok.injEq] at h
            subst h
            refine ⟨?_, ?_, ?_⟩
            · rw [htext, ← hspan]
              simp [Expression.text]
            · simpa using hname
            · rintro _ ⟨rfl⟩
              simpa using hbody
        · simp at h
    · simp at h

lemma ofText_of_wellFormed {text : String} {e : Expression} (htext : text.toList = e.text)
    (he : e.WellFormed) : ofText text = .ok e := by
  obtain ⟨name, arguments⟩ := e
  cases arguments with
  | none =>
    obtain ⟨first, later, hcons, ha, htake, hdrop⟩ :=
      @span_identifier _ [] he.name (by simp)
    rw [List.append_nil] at hcons
    rw [Expression.text, hcons] at htext
    simp only [ofText, htext, ha, if_true, hdrop, htake, String.ofList_toList]
  | some body =>
    have hcall := ofText_identifier_append he.name (body.toList ++ [callClose])
    rw [readCall_eq_ok_iff.2 ⟨rfl, he.arguments body rfl⟩] at hcall
    have hlist : name.toList ++ callOpen :: (body.toList ++ [callClose]) = text.toList := by
      simp [htext, Expression.text]
    rw [hlist, String.ofList_toList] at hcall
    simpa [Except.map] using hcall

/-- A text is read as an expression exactly when it is the text of that expression, and the
expression is well formed. -/
theorem ofText_eq_ok_iff {text : String} {e : Expression} :
    ofText text = .ok e ↔ text.toList = e.text ∧ e.WellFormed := by
  constructor
  · exact wellFormed_of_ofText
  · rintro ⟨htext, he⟩
    exact ofText_of_wellFormed htext he

/-- A text is read as a name alone if it is that name. -/
lemma ofText_eq_name_iff {text name : String} :
    ofText text = .ok ⟨name, none⟩ ↔ text = name ∧ isIdentifier name.toList = true := by
  rw [ofText_eq_ok_iff, Expression.text, String.toList_inj]
  apply and_congr_right
  intro _
  constructor
  · intro he
    exact he.name
  · intro hn
    exact ⟨hn, by simp⟩

/-- A text is read as a call if it is the name with the body between parentheses. -/
lemma ofText_eq_call_iff {text name body : String} :
    ofText text = .ok ⟨name, some body⟩ ↔
      text = name ++ "(" ++ body ++ ")" ∧ isIdentifier name.toList = true ∧
        Nested '(' ')' body.toList := by
  rw [ofText_eq_ok_iff, ← String.toList_inj]
  apply and_congr
  · simp [Expression.text]
  · constructor
    · intro he
      exact ⟨he.name, he.arguments body rfl⟩
    · rintro ⟨hn, hb⟩
      refine ⟨hn, ?_⟩
      rintro _ ⟨rfl⟩
      exact hb

/-- A text is read as a name alone exactly when it is an identifier, and as a name with a body
exactly when an identifier and a nested body between parentheses make it up. Every other text is
refused. -/
theorem ofText_accepts_exactly_grammar (text : String) :
    (∀ name, ofText text = .ok ⟨name, none⟩ ↔
      text = name ∧ isIdentifier name.toList = true) ∧
    (∀ name body, ofText text = .ok ⟨name, some body⟩ ↔
      text = name ++ "(" ++ body ++ ")" ∧ isIdentifier name.toList = true ∧
        Nested '(' ')' body.toList) ∧
    ((∃ error, ofText text = .error error) ↔
      isIdentifier text.toList = false ∧
        ¬∃ name body, text = name ++ "(" ++ body ++ ")" ∧ isIdentifier name.toList = true ∧
          Nested '(' ')' body.toList) := by
  refine ⟨?_, ?_, ?_⟩
  · intro name
    exact ofText_eq_name_iff
  · intro name body
    exact ofText_eq_call_iff
  constructor
  · rintro ⟨error, herror⟩
    refine ⟨?_, ?_⟩
    · by_contra hn
      rw [Bool.not_eq_false] at hn
      rw [ofText_eq_name_iff.2 ⟨rfl, hn⟩] at herror
      cases herror
    · rintro ⟨name, body, h⟩
      rw [ofText_eq_call_iff.2 h] at herror
      cases herror
  · rintro ⟨hn, hcall⟩
    cases h : ofText text with
    | error error => exact ⟨error, rfl⟩
    | ok e =>
      exfalso
      obtain ⟨name, _ | body⟩ := e
      · obtain ⟨rfl, hname⟩ := ofText_eq_name_iff.1 h
        rw [hname] at hn
        cases hn
      · exact hcall ⟨name, body, ofText_eq_call_iff.1 h⟩

end Expression

end FormatExpr
