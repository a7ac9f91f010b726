import FormatExpr.Proofs.ErrorColumns
import FormatExpr.Proofs.ExpressionGrammar
import FormatExpr.Proofs.LiteralText

/-!
# Texts that can become expressions

A text is viable if it can be continued to an expression. Every text is an expression, or it is
unfinished, or it is a viable text and a character that may not follow it, and more
(`expression_or_unfinished_or_misplaced`). The error tells these apart: that of an unfinished text
says what was left open, and that of any other text stands at the character with which the text
stops being viable, whatever comes after (`ofText_error_by_viability`).
-/

namespace FormatExpr

namespace Expression

/-- The text can be continued to an expression. -/
def IsViable (text : List Char) : Prop :=
  ∃ more e, ofText (String.ofList (text ++ more)) = .ok e

/-- The text ends before an expression does. The error says what it leaves open and where that
stands. -/
inductive Unfinished : List Char → ExpressionError → Prop where
  | empty : Unfinished [] ⟨1, .empty⟩
  | quote {name before run : List Char} {q : Char} (hname : isIdentifier name = true)
      (h : HalfNested callOpen callClose before) (hq : isQuote q = true) (hr : q ∉ run) :
      Unfinished (name ++ callOpen :: (before ++ q :: run))
        ⟨name.length + before.length + 2, .openQuote q⟩
  | call {name body : List Char} (hname : isIdentifier name = true)
      (h : HalfNested callOpen callClose body) :
      Unfinished (name ++ callOpen :: body) ⟨name.length + 1, .openCall⟩

/-- The text can be continued, but not with the character. -/
inductive Misplaced : List Char → Char → ExpressionFault → Prop where
  | noName {c : Char} (h : c.isAlpha = false) : Misplaced [] c (.noName c)
  | afterName {name : List Char} {c : Char} (hname : isIdentifier name = true)
      (hc : c.isAlphanum = false) (ho : c ≠ callOpen) :
      Misplaced name c (.afterName c (String.ofList name))
  | afterCall {name body : List Char} {c : Char} (hname : isIdentifier name = true)
      (h : Nested callOpen callClose body) :
      Misplaced (name ++ callOpen :: (body ++ [callClose])) c (.afterCall c)

/-! ### Bodies that do not end -/

/-- Within a quoted run that is not closed a body does not end. -/
lemma readBody_run {q : OpenQuote} {run : List Char} (hr : q.mark ∉ run) (depth column : Nat) :
    readBody depth (some q) column run = .error (some q) := by
  induction run generalizing column with
  | nil => rfl
  | cons c run ih =>
    obtain ⟨hc, hr⟩ := not_or.1 (mt List.mem_cons.2 hr)
    have hnext : OpenQuote.next (some q) column c = some q := by
      simp [OpenQuote.next, Ne.symm hc]
    rw [readBody_other (by simp), hnext, ih hr]
    rfl

/-- A body does not end after a half nested text if it does not end at any depth. -/
lemma readBody_halfNested_append {u rest : List Char} {r : Option OpenQuote}
    (hu : HalfNested callOpen callClose u) {column : Nat}
    (hrest : ∀ depth, readBody depth none (column + u.length) rest = .error r) (depth : Nat) :
    readBody depth none column (u ++ rest) = .error r := by
  induction hu using HalfNested.ind generalizing depth column with
  | nil => exact hrest depth
  | nested hs _ ih =>
    rw [List.append_assoc, readBody_nested_append hs, ih]
    · rfl
    · simpa [Nat.add_assoc] using hrest
  | opened _ ih =>
    rw [List.cons_append, readBody_open, ih]
    · rfl
    · simpa [Nat.add_comm, Nat.add_left_comm] using hrest

lemma readCall_of_halfNested {body : List Char} (h : HalfNested callOpen callClose body)
    (opening : Nat) : readCall opening body = .error ⟨opening, .openCall⟩ := by
  have hbody : readBody 0 none (opening + 1) (body ++ []) = .error none :=
    readBody_halfNested_append h (fun _ => rfl) 0
  rw [List.append_nil] at hbody
  rw [readCall, hbody]

lemma readCall_of_quote {before run : List Char} {q : Char}
    (h : HalfNested callOpen callClose before) (hq : isQuote q = true) (hr : q ∉ run)
    (opening : Nat) : readCall opening (before ++ q :: run)
      = .error ⟨opening + 1 + before.length, .openQuote q⟩ := by
  have hp : q ≠ callOpen ∧ q ≠ callClose := ⟨ne_of_isQuote hq rfl, ne_of_isQuote hq rfl⟩
  have hquote : ∀ depth, readBody depth none (opening + 1 + before.length) (q :: run)
      = .error (some ⟨q, opening + 1 + before.length⟩) := by
    intro depth
    have hnext : OpenQuote.next none (opening + 1 + before.length) q
        = some ⟨q, opening + 1 + before.length⟩ := by
      simp [OpenQuote.next, hq]
    rw [readBody_other fun _ => hp, hnext, readBody_run hr]
    rfl
  rw [readCall, readBody_halfNested_append h hquote]

lemma readCall_of_nested {body : List Char} (h : Nested callOpen callClose body) (opening : Nat)
    (c : Char) (after : List Char) : readCall opening (body ++ callClose :: c :: after)
      = .error ⟨opening + body.length + 2, .afterCall c⟩ := by
  rw [readCall, readBody_eq_ok_iff.2 ⟨rfl, h⟩]

/-! ### Errors of expressions -/

/-- A name with a nested body between parentheses is an expression. -/
lemma ofText_call_of_nested {name body : List Char} (hname : isIdentifier name = true)
    (h : Nested callOpen callClose body) :
    ofText (String.ofList (name ++ callOpen :: (body ++ [callClose])))
      = .ok ⟨String.ofList name, some (String.ofList body)⟩ := by
  rw [ofText_identifier_append hname, readCall_eq_ok_iff.2 ⟨rfl, h⟩]
  rfl

/-- An unfinished text is refused with what it leaves open. -/
theorem Unfinished.ofText_eq {text : List Char} {e : ExpressionError} (h : Unfinished text e) :
    ofText (String.ofList text) = .error e := by
  cases h with
  | empty => rfl
  | @quote name before run q hname h hq hr =>
    rw [ofText_identifier_append hname, readCall_of_quote h hq hr]
    simp only [Except.map]
    congr 2
    omega
  | call hname h =>
    rw [ofText_identifier_append hname, readCall_of_halfNested h]
    rfl

/-- A misplaced character is reported, whatever comes after it. -/
theorem Misplaced.ofText_eq {before : List Char} {c : Char} {fault : ExpressionFault}
    (h : Misplaced before c fault) (after : List Char) :
    ofText (String.ofList (before ++ c :: after)) = .error ⟨before.length + 1, fault⟩ := by
  cases h with
  | noName h => simp [ofText, h]
  | afterName hname hc ho =>
    obtain ⟨first, later, hcons, ha, htake, hdrop⟩ :=
      @span_identifier _ (c :: after) hname (by simpa using hc)
    simp only [ofText, String.toList_ofList, hcons, ha, if_true, hdrop, htake, if_neg ho]
  | @afterCall name body _ hname h =>
    have htext : name ++ callOpen :: (body ++ [callClose]) ++ c :: after
        = name ++ callOpen :: (body ++ callClose :: c :: after) := by simp
    rw [htext, ofText_identifier_append hname, readCall_of_nested h]
    simp only [Except.map]
    congr 2
    simp only [List.length_append, List.length_cons, List.length_nil]
    omega

/-! ### Viable texts -/

lemma IsViable.of_append {u v : List Char} (h : IsViable (u ++ v)) : IsViable u := by
  obtain ⟨more, e, h⟩ := h
  exact ⟨v ++ more, e, by rwa [← List.append_assoc]⟩

lemma isViable_of_isIdentifier {name : List Char} (h : isIdentifier name = true) :
    IsViable name := by
  exact ⟨[], ⟨String.ofList name, none⟩, ofText_eq_name_iff.2 ⟨by simp, by simpa using h⟩⟩

/-- A call is viable as far as its body can be continued to a nested one. -/
lemma isViable_call {name body more : List Char} (hname : isIdentifier name = true)
    (h : Nested callOpen callClose (body ++ more)) : IsViable (name ++ callOpen :: body) := by
  refine ⟨more ++ [callClose], ⟨String.ofList name, some (String.ofList (body ++ more))⟩, ?_⟩
  simpa using ofText_call_of_nested hname h

/-- What an unfinished text leaves open can be closed. -/
theorem Unfinished.isViable {text : List Char} {e : ExpressionError} (h : Unfinished text e) :
    IsViable text := by
  cases h with
  | empty => exact ⟨['x'], ⟨"x", none⟩, rfl⟩
  | @quote name before run q hname h hq hr =>
    obtain ⟨more, hmore⟩ := (h.append (.quoted hq hr .nil)).exists_nested_append
    have hclosed : Nested callOpen callClose (before ++ q :: run ++ q :: more) := by
      simpa using hmore
    exact isViable_call hname hclosed
  | call hname h =>
    obtain ⟨more, hmore⟩ := h.exists_nested_append
    exact isViable_call hname hmore

lemma Misplaced.isViable {before : List Char} {c : Char} {fault : ExpressionFault}
    (h : Misplaced before c fault) : IsViable before := by
  cases h with
  | noName => exact Unfinished.empty.isViable
  | afterName hname => exact isViable_of_isIdentifier hname
  | afterCall hname h =>
    have hcall := ofText_call_of_nested hname h
    exact ⟨[], _, by rwa [List.append_nil]⟩

/-- No expression goes on with a misplaced character. -/
lemma Misplaced.not_isViable {before after : List Char} {c : Char} {fault : ExpressionFault}
    (h : Misplaced before c fault) : ¬IsViable (before ++ c :: after) := by
  rintro ⟨more, e, he⟩
  rw [List.append_assoc, List.cons_append, h.ofText_eq] at he
  cases he

/-! ### Every text -/

/-- Every text is an expression, or unfinished, or has a misplaced character. -/
theorem expression_or_unfinished_or_misplaced (text : List Char) :
    (∃ e, ofText (String.ofList text) = .ok e) ∨ (∃ e, Unfinished text e) ∨
      ∃ before c after fault, text = before ++ c :: after ∧ Misplaced before c fault := by
  cases text with
  | nil => exact .inr (.inl ⟨_, .empty⟩)
  | cons first later =>
    cases hfirst : first.isAlpha with
    | false => exact .inr (.inr ⟨[], first, later, _, rfl, .noName hfirst⟩)
    | true =>
      have hname := isIdentifier_cons_takeWhile hfirst later
      have hhead := List.head?_dropWhile_not Char.isAlphanum later
      rw [← @List.takeWhile_append_dropWhile _ Char.isAlphanum later, ← List.cons_append]
      generalize first :: List.takeWhile Char.isAlphanum later = name at hname ⊢
      cases hrest : List.dropWhile Char.isAlphanum later with
      | nil =>
        rw [List.append_nil]
        exact .inl ⟨_, ofText_eq_name_iff.2 ⟨rfl, by simpa using hname⟩⟩
      | cons c cs =>
        rw [hrest] at hhead
        by_cases ho : c = callOpen
        · subst ho
          cases sequel callOpen callClose cs with
          | leavesOpen h => exact .inr (.inl ⟨_, .call hname h⟩)
          | leavesQuote h hq hr => exact .inr (.inl ⟨_, .quote hname h hq hr⟩)
          | @closes body after h =>
            cases after with
            | nil => exact .inl ⟨_, ofText_call_of_nested hname h⟩
            | cons c after =>
              refine .inr (.inr ⟨_, c, after, _, ?_, .afterCall hname h⟩)
              simp
        · exact .inr (.inr ⟨name, c, cs, _, rfl, .afterName hname (by simpa using hhead) ho⟩)

/-! ### What the error tells -/

/-- An identifier is made of word characters. -/
lemma isWordChar_of_isIdentifier {name : List Char} (h : isIdentifier name = true) :
    ∀ c ∈ name, Text.IsWordChar c := by
  cases name with
  | nil => simp
  | cons first later =>
    simp only [isIdentifier, Bool.and_eq_true, List.all_eq_true] at h
    refine List.forall_mem_cons.2 ⟨.inl ?_, fun c hc => .inl (h.2 c hc)⟩
    simp [Char.isAlphanum, h.1]

/-- No quoted run is open after a call that has been begun if there is none in its body. -/
lemma markAfter_call {name body : List Char} (hname : isIdentifier name = true)
    (h : HalfNested callOpen callClose body) :
    markAfter none (name ++ callOpen :: body) = none := by
  have hnested : Nested callOpen callClose name :=
    Text.nested_of_word (isWordChar_of_isIdentifier hname)
  exact ((HalfNested.of_nested hnested).append (.opened h)).markAfter_eq_none rfl rfl

/-- What the error of an unfinished text is, by what is left open. -/
lemma Unfinished.error_eq {text : List Char} {e : ExpressionError} (h : Unfinished text e) :
    text = [] ∧ e = ⟨1, .empty⟩ ∨
      (∃ before q run, text = before ++ q :: run ∧ markAfter none before = none ∧
        isQuote q = true ∧ q ∉ run ∧ e = ⟨before.length + 1, .openQuote q⟩) ∨
      ∃ before rest, text = before ++ callOpen :: rest ∧ callOpen ∉ before ∧
        markAfter none text = none ∧ e = ⟨before.length + 1, .openCall⟩ := by
  cases h with
  | empty => exact .inl ⟨rfl, rfl⟩
  | @quote name before run q hname h hq hr =>
    have htext : name ++ callOpen :: (before ++ q :: run)
        = name ++ callOpen :: before ++ q :: run := by simp
    refine .inr (.inl ⟨_, q, run, htext, markAfter_call hname h, hq, hr, ?_⟩)
    rw [List.length_append, List.length_cons]
    rfl
  | @call name body hname h =>
    refine .inr (.inr ⟨name, body, rfl, ?_, markAfter_call hname h, rfl⟩)
    intro hmem
    exact (isWordChar_of_isIdentifier hname _ hmem).ne (by decide) rfl

/-- A text stops being viable with its misplaced character. -/
lemma Misplaced.isLeast {before after : List Char} {c : Char} {fault : ExpressionFault}
    (h : Misplaced before c fault) :
    IsLeast {n | ¬IsViable ((before ++ c :: after).take n)} (before.length + 1) := by
  constructor
  · change ¬IsViable ((before ++ c :: after).take (before.length + 1))
    rw [List.take_length_add_append]
    exact h.not_isViable
  · intro n hn
    by_contra hlt
    apply hn
    have hle : n ≤ before.length := by omega
    rw [List.take_append_of_le_length hle]
    apply IsViable.of_append (v := before.drop n)
    rw [List.take_append_drop]
    exact h.isViable

/-- If a refused text can be continued to an expression then it is empty, or the error names the
quote character or the first parenthesis that is left open. If it cannot, the column of the error is
the length of the shortest start of the text that cannot be continued to an expression, and
the error names the last character of this start. -/
theorem ofText_error_by_viability (text : String) (e : ExpressionError)
    (h : ofText text = .error e) :
    (IsViable text.toList →
      text = "" ∧ e.column = 1 ∧ e.fault.detail = "empty expression" ∨
      (∃ before q run, text.toList = before ++ q :: run ∧ markAfter none before = none ∧
        isQuote q = true ∧ q ∉ run ∧ e.column = before.length + 1 ∧
        e.fault.detail = s!"unterminated {q} quote in argument list") ∨
      ∃ before rest, text.toList = before ++ '(' :: rest ∧ '(' ∉ before ∧
        markAfter none text.toList = none ∧ e.column = before.length + 1 ∧
        e.fault.detail = "unterminated call, missing ')'") ∧
    (¬IsViable text.toList →
      IsLeast {n | ¬IsViable (text.toList.take n)} e.column ∧
      ∃ c, Text.charAt? text.toList e.column = some c ∧
        (e.fault.detail = s!"expected identifier, found '{c}'" ∨
          (∃ name : String, name.toList = text.toList.take (e.column - 1) ∧
            e.fault.detail = s!"unexpected character '{c}' after identifier '{name}'") ∨
          e.fault.detail = s!"unexpected character '{c}' after closing ')'")) := by
  rw [← String.ofList_toList (s := text)] at h
  rcases expression_or_unfinished_or_misplaced text.toList with
    ⟨e', he'⟩ | ⟨e', he'⟩ | ⟨before, c, after, fault, htext, hc⟩
  · rw [he'] at h
    cases h
  · rw [he'.ofText_eq, Except.error.injEq] at h
    subst h
    refine ⟨fun _ => ?_, fun hnot => absurd he'.isViable hnot⟩
    rcases he'.error_eq with ⟨htext, rfl⟩ | ⟨before, q, run, htext, hbefore, hq, hr, rfl⟩ |
      ⟨before, rest, htext, hbefore, hquote, rfl⟩
    · exact .inl ⟨String.toList_eq_nil_iff.1 htext, rfl, rfl⟩
    · exact .inr (.inl ⟨before, q, run, htext, hbefore, hq, hr, rfl, rfl⟩)
    · exact .inr (.inr ⟨before, rest, htext, hbefore, hquote, rfl, rfl⟩)
  · rw [htext] at h ⊢
    rw [hc.ofText_eq, Except.error.injEq] at h
    subst h
    refine ⟨fun hviable => absurd hviable hc.not_isViable, fun _ => ⟨hc.isLeast, c, ?_, ?_⟩⟩
    · exact Text.charAt?_append before c after
    · cases hc with
      | noName => exact .inl rfl
      | afterName => exact .inr (.inl ⟨String.ofList before, by simp, rfl⟩)
      | afterCall => exact .inr (.inr rfl)

/-- A quote that hides a parenthesis is left open, and a character follows a closed call. -/
theorem ofText_error_by_viability_quote :
    ofText "f((')" = .error ⟨4, .openQuote '\''⟩ ∧ IsViable "f((')".toList ∧
      (∃ before q run, "f((')".toList = before ++ q :: run ∧ markAfter none before = none ∧
        isQuote q = true ∧ q ∉ run ∧ 4 = before.length + 1 ∧
        "unterminated ' quote in argument list" = s!"unterminated {q} quote in argument list") ∧
      ofText "f(')') x" = .error ⟨7, .afterCall ' '⟩ ∧ ¬IsViable "f(')') x".toList ∧
      IsLeast {n | ¬IsViable ("f(')') x".toList.take n)} 7 := by
  have hopen : ofText "f((')" = .error ⟨4, .openQuote '\''⟩ := rfl
  have hviable : IsViable "f((')".toList := ⟨"'))".toList, _, rfl⟩
  have hcall : ofText "f(')') x" = .error ⟨7, .afterCall ' '⟩ := rfl
  have hbody : Nested callOpen callClose "')'".toList :=
    @Nested.quoted _ _ '\'' [')'] [] (by decide) (by decide) .nil
  have hspace := @Misplaced.afterCall ['f'] _ ' ' rfl hbody
  have hlist : "f(')') x".toList
      = ['f'] ++ callOpen :: ("')'".toList ++ [callClose]) ++ ' ' :: ['x'] := rfl
  have hnot : ¬IsViable "f(')') x".toList := by
    rw [hlist]
    exact hspace.not_isViable
  refine ⟨hopen, hviable, ?_, hcall, hnot, ((ofText_error_by_viability _ _ hcall).2 hnot).1⟩
  rcases (ofText_error_by_viability _ _ hopen).1 hviable with
    ⟨hempty, -⟩ | hquote | ⟨before, rest, -, -, -, -, hdetail⟩
  · exact absurd hempty (by decide)
  · exact hquote
  · exact absurd hdetail (by decide)

end Expression

end FormatExpr
