import FormatExpr.Format
import FormatExpr.Proofs.Faithful
import FormatExpr.Proofs.TokenReading
import FormatExpr.Proofs.Trimming

/-!
# The text of literals

The text of every literal is tight and not empty. Booleans and numbers are words: no character of
them is blank, a quote or a delimiter. If no string in it holds both quote characters, the text of
a literal has matching parentheses as well, and so has an argument text made of such literals.
-/

namespace FormatExpr

/-! ### Words -/

namespace Text

lemma isTight_of_word {word : List Char} (h : ∀ c ∈ word, IsWordChar c) : IsTight word := by
  constructor
  · intro c hc
    exact (h c (List.mem_of_mem_head? hc)).isBlank
  · intro c hc
    exact (h c (List.mem_of_mem_getLast? hc)).isBlank

lemma onePiece_of_word {word : List Char} (h : ∀ c ∈ word, IsWordChar c) : OnePiece word := by
  induction word with
  | nil => exact .nil
  | cons c cs ih =>
    obtain ⟨hc, hcs⟩ := List.forall_mem_cons.1 h
    have ho : c ≠ listOpen := hc.ne (by decide)
    have hclose : c ≠ listClose := hc.ne (by decide)
    have hs : c ≠ separator := hc.ne (by decide)
    exact .plain hc.isQuote ho hclose hs (ih hcs)

lemma nested_of_word {word : List Char} (h : ∀ c ∈ word, IsWordChar c) :
    Nested callOpen callClose word := by
  apply Nested.of_plain
  intro c hc
  exact ⟨(h c hc).isQuote, (h c hc).ne (by decide), (h c hc).ne (by decide)⟩

end Text

namespace Number

open Text

lemma text_of_not_isFinite {n : Number} (h : ¬n.IsFinite) :
    n.text ∈ ["NaN".toList, "inf".toList, "-inf".toList] := by
  cases n with
  | integer i => exact absurd trivial h
  | float x =>
    by_cases hnan : x.isNaN = true
    · simp [Number.text, Binary64.text, hnan]
    · have hinf : x.isInfinite = true := by
        simp only [IsFinite, Binary64.isFinite, Binary64.isNaN, decide_eq_true_eq] at h hnan
        simp only [Binary64.isInfinite, beq_iff_eq]
        omega
      cases hneg : x.negative <;> simp [Number.text, Binary64.text, hnan, hinf, hneg]

/-- The text of a number that is not finite is read as a string. -/
lemma number?_text_of_not_isFinite {n : Number} (h : ¬n.IsFinite) :
    Token.number? n.text = none := by
  have hall : ∀ word ∈ ["NaN".toList, "inf".toList, "-inf".toList], Token.number? word = none := by
    decide
  exact hall _ (text_of_not_isFinite h)

lemma isWordChar_text (n : Number) : ∀ c ∈ n.text, IsWordChar c := by
  by_cases h : n.IsFinite
  · exact Token.isWordChar_of_number? (Token.number?_text h)
  · have hall : ∀ word ∈ ["NaN".toList, "inf".toList, "-inf".toList],
        word.all (fun c => c.isAlphanum || c == '-') = true := by
      decide
    intro c hc
    have := List.all_eq_true.1 (hall _ (text_of_not_isFinite h)) c hc
    rcases Bool.or_eq_true_iff.1 this with hc | hc
    · exact .inl hc
    · exact .inr (.inl (beq_iff_eq.1 hc))

lemma text_ne_nil (n : Number) : n.text ≠ [] := by
  by_cases h : n.IsFinite
  · intro hnil
    have := Token.number?_text h
    rw [hnil] at this
    cases this
  · intro hnil
    have := text_of_not_isFinite h
    rw [hnil] at this
    revert this
    decide

end Number

namespace Literal

open Text

lemma isWordChar_text_boolean (b : Bool) : ∀ c ∈ (boolean b).text, IsWordChar c := by
  have hall : (boolean b).text.all Char.isAlphanum = true := by cases b <;> decide
  intro c hc
  exact .inl (List.all_eq_true.1 hall c hc)

/-! ### Tight texts -/

lemma isBlank_of_isQuote {q : Char} (h : isQuote q = true) : isBlank q = false := by
  have : q = '\'' ∨ q = '"' := by simpa [isQuote, quotes] using h
  rcases this with rfl | rfl <;> decide

lemma isTight_text (x : Literal) : IsTight x.text := by
  cases x with
  | string s =>
    have hq := isBlank_of_isQuote (isQuote_quoteFor s.toList)
    exact isTight_between hq hq s.toList
  | number n => exact isTight_of_word n.isWordChar_text
  | boolean b => exact isTight_of_word (isWordChar_text_boolean b)
  | list items => exact isTight_between (by decide) (by decide) (textJoined items)

lemma text_ne_nil (x : Literal) : x.text ≠ [] := by
  cases x with
  | string s => simp [text, quoted]
  | number n => exact n.text_ne_nil
  | boolean b => cases b <;> decide
  | list items => simp [text]

/-- The text of a literal begins with a character that is no blank. -/
lemma exists_text_eq_cons (x : Literal) : ∃ c cs, x.text = c :: cs ∧ isBlank c = false := by
  obtain ⟨c, cs, hx⟩ := List.exists_cons_of_ne_nil x.text_ne_nil
  exact ⟨c, cs, hx, x.isTight_text.1 c (by rw [hx]; rfl)⟩

/-- The texts of several literals are the text of the first and, if there are more, a separator, a
blank and the texts of the others. -/
lemma textJoined_cons (x : Literal) (xs : List Literal) :
    textJoined (x :: xs) = x.text ++ if xs = [] then [] else separator :: ' ' :: textJoined xs := by
  cases xs with
  | nil => simp [textJoined]
  | cons y rest => simp [textJoined]

/-! ### Parentheses -/

lemma nested_textJoined {xs : List Literal} (h : ∀ x ∈ xs, Nested callOpen callClose x.text) :
    Nested callOpen callClose (textJoined xs) := by
  induction xs with
  | nil => exact .nil
  | cons x xs ih =>
    obtain ⟨hx, hxs⟩ := List.forall_mem_cons.1 h
    have hseparator : Nested callOpen callClose [separator] := .singleton (by decide)
    have hspace : Nested callOpen callClose [' '] := .singleton (by decide)
    rw [textJoined_cons]
    refine hx.append ?_
    split_ifs
    · exact .nil
    · exact hseparator.append (hspace.append (ih hxs))

/-- The parentheses in the text of a plain literal match. -/
theorem nested_text {x : Literal} (h : x.IsPlain) : Nested callOpen callClose x.text := by
  induction h with
  | @string s h => exact .quoted (isQuote_quoteFor _) (quoteFor_notMem h) .nil
  | @number n _ => exact nested_of_word n.isWordChar_text
  | boolean b => exact nested_of_word (isWordChar_text_boolean b)
  | @list items _ ih =>
    have hopen : Nested callOpen callClose [listOpen] := .singleton (by decide)
    have hclose : Nested callOpen callClose [listClose] := .singleton (by decide)
    exact hopen.append ((nested_textJoined ih).append hclose)

end Literal

/-- The argument text of a call with plain arguments can stand between parentheses. -/
theorem Format.nested_argumentText {arguments : List Literal} (h : ∀ x ∈ arguments, x.IsPlain) :
    Nested callOpen callClose (argumentText arguments) := by
  rw [argumentText.eq_def]
  split
  · exact .nil
  · apply Literal.nested_textJoined
    intro x hx
    exact Literal.nested_text (h x hx)

end FormatExpr
