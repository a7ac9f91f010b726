import FormatExpr.Proofs.Asking
import FormatExpr.Proofs.LiteralText

/-!
# Reading what was written

The text of a faithful literal is one piece of argument text, and that piece has the literal as
its value again (`IsFaithful.readsBack`). So the argument text of a call is read as the arguments
it was written for, and the text of a call with an identifier as its name is read as that call if
its argument text can stand between parentheses.
-/

namespace FormatExpr

namespace Literal

open Text

lemma trim_blankRun_append {lead : List Char} (hlead : IsBlankRun lead) (x : Literal) :
    trim (lead ++ x.text) = x.text := by
  simpa using trim_append hlead isBlankRun_nil x.isTight_text

/-! ### Literals -/

/-- The text of the literal is one piece of argument text, and the value of this piece is the
literal. -/
structure ReadsBack (x : Literal) : Prop where
  whole : Piece.Whole x.text
  literal : ∀ {lead : List Char} (offset : Nat), IsBlankRun lead →
    Piece.literal ⟨lead ++ x.text, offset⟩ = .ok x

lemma ReadsBack.of_token {x : Literal} (hw : Piece.Whole x.text)
    (ht : Token.ofText x.text = .literal x) : x.ReadsBack := by
  refine ⟨hw, ?_⟩
  intro lead offset hlead
  apply Piece.literal_of_ofText
  rw [trim_blankRun_append hlead, ht]

/-- Literals that read back do so together. -/
lemma reads_textJoined {xs : List Literal} (hne : xs ≠ []) (h : ∀ x ∈ xs, x.ReadsBack)
    {lead : List Char} (hlead : IsBlankRun lead) (offset : Nat) :
    Argument.Reads offset (lead ++ textJoined xs) xs := by
  induction xs generalizing lead offset with
  | nil => exact absurd rfl hne
  | cons x xs ih =>
    obtain ⟨hx, hxs⟩ := List.forall_mem_cons.1 h
    have hfirst := hx.literal offset hlead
    rw [textJoined_cons, ← List.append_assoc]
    split_ifs with hlast
    · rw [List.append_nil, hlast]
      exact .last ((Piece.Whole.of_isBlankRun hlead).append hx.whole) hfirst
    · exact .cons ((Piece.Whole.of_isBlankRun hlead).append hx.whole) hfirst
        (ih hlast hxs isBlankRun_space _)

lemma all_isBlank_textJoined {items : List Literal} (hne : items ≠ []) :
    (textJoined items).all isBlank = false := by
  cases items with
  | nil => exact absurd rfl hne
  | cons x xs =>
    obtain ⟨c, cs, htext, hc⟩ := x.exists_text_eq_cons
    rw [textJoined_cons, htext]
    simp [hc]

/-- A faithful literal reads back. -/
theorem IsFaithful.readsBack {x : Literal} (h : x.IsFaithful) : x.ReadsBack := by
  induction h with
  | @string s h =>
    refine .of_token (Piece.whole_of_onePiece h) ?_
    rw [Literal.text, quoted, Token.ofText_quoted (isQuote_quoteFor _), String.ofList_toList]
  | @number n h =>
    refine .of_token (Piece.whole_of_onePiece (onePiece_of_word n.isWordChar_text)) ?_
    rw [Literal.text, Token.ofText_word fun c hc => n.isWordChar_text c (List.mem_of_mem_head? hc),
      Token.ofWord_of_number? (Token.number?_text h)]
  | boolean b =>
    have hword := isWordChar_text_boolean b
    refine .of_token (Piece.whole_of_onePiece (onePiece_of_word hword)) ?_
    rw [Token.ofText_word fun c hc => hword c (List.mem_of_mem_head? hc), Token.ofWord_boolean]
  | @list items _ ih =>
    by_cases hne : items = []
    · subst hne
      refine ⟨Piece.whole_of_onePiece (.enclosed .nil .nil), ?_⟩
      intro lead offset hlead
      have htoken : Token.ofText (trim (lead ++ (list []).text)) = .list [] := by
        rw [trim_blankRun_append hlead]
        rfl
      rw [Piece.literal_of_list htoken]
      rfl
    · have hreads : ∀ offset, Argument.Reads offset (textJoined items) items :=
        reads_textJoined hne ih isBlankRun_nil
      obtain ⟨pieces, hsplit, -⟩ := (hreads 0).exists_split
      refine ⟨Piece.whole_list hsplit, ?_⟩
      intro lead offset hlead
      have htoken : Token.ofText (trim (lead ++ (list items).text)) = .list (textJoined items) := by
        rw [trim_blankRun_append hlead]
        exact Token.ofText_bracketed _
      rw [Piece.literal_of_list htoken, all_isBlank_textJoined hne, if_neg Bool.false_ne_true,
        Argument.literalsFrom_eq_ok_iff.2 (hreads _)]
      rfl

end Literal

/-! ### Calls -/

namespace Format

/-- The argument text of a call with faithful arguments is read as these arguments. -/
theorem literals_argumentText {arguments : List Literal} (hne : arguments ≠ [])
    (h : ∀ x ∈ arguments, x.IsFaithful) :
    Argument.literals (String.ofList (argumentText arguments)) = .ok arguments := by
  rw [Argument.literals, String.toList_ofList, Argument.literalsFrom_eq_ok_iff,
    argumentText.eq_def]
  split
  · -- nothing between the parentheses stands for the empty string
    exact .last .nil rfl
  · exact Literal.reads_textJoined hne (fun x hx => (h x hx).readsBack) Text.isBlankRun_nil 0

/-- The text of a call is read as that call if its argument text can stand between parentheses. -/
theorem ofText_display_method {name : String} {arguments : List Literal}
    (hname : isIdentifier name.toList = true) (hne : arguments ≠ [])
    (h : ∀ x ∈ arguments, x.IsFaithful)
    (hnested : Nested callOpen callClose (argumentText arguments)) :
    ofText (method name arguments).display = .ok (method name arguments) := by
  refine ofText_eq_method_iff.2 ⟨_, ?_, literals_argumentText hne h⟩
  refine Expression.ofText_eq_ok_iff.2 ⟨?_, hname, ?_⟩
  · simp [display, Format.text, Expression.text]
  · rintro _ ⟨rfl⟩
    simpa using hnested

end Format

namespace Parser

variable {ρ : Type} [Registry ρ]

/-- The text of a call is parsed as that call, if the name is an identifier, there is an argument,
no string in the arguments holds both quote characters, and every number in them is finite. -/
theorem parse_display_method {registry : ρ} (hall : ∀ q, Registry.answer registry q = true)
    {name : String} (hname : isIdentifier name.toList = true) {arguments : List Literal}
    (hne : arguments ≠ []) (hplain : ∀ x ∈ arguments, x.IsPlain) :
    (ofRegistry registry).1.parse (Format.method name arguments).display
      = .ok (.method name arguments) := by
  rw [parse_ofRegistry hall]
  exact Format.ofText_display_method hname hne (fun x hx => (hplain x hx).isFaithful)
    (Format.nested_argumentText hplain)

theorem parse_display_method_nested :
    (ofRegistry fun _ : Query => true).1.parse
        (Format.method "pick" [.list [.string "a, (b]", .list []],
          .number (.float (Binary64.zero true))]).display
      = .ok (.method "pick" [.list [.string "a, (b]", .list []],
          .number (.float (Binary64.zero true))]) := by
  refine parse_display_method (fun _ => rfl) (by decide) (by simp) ?_
  rw [List.forall_mem_cons, List.forall_mem_singleton]
  refine ⟨.list ?_, .number (show (Binary64.zero true).isFinite = true by decide)⟩
  rw [List.forall_mem_cons, List.forall_mem_singleton]
  exact ⟨.string (by decide), .list (by simp)⟩

end Parser

end FormatExpr
