import FormatExpr.Proofs.Asking
import FormatExpr.Proofs.Levels

/-!
# The columns of errors

The column of an error of argument decoding is where the character stands that the error names, on
whatever level of the text it arises, and it stands in no quoted run that is closed
(`Argument.literals_error_column`). Inside an expression that character stands behind the name and
the parenthesis by as many places. No quote is left open there, since the reader of expressions and
the splitter agree on what is quoted (`Parser.parse_invalidArguments_bracket`).
-/

namespace FormatExpr

/-- The character of a text in a column; columns count from one. -/
def Text.charAt? (text : List Char) : (column : Nat) → Option Char
  | 0 => none
  | k + 1 => text[k]?

lemma Text.charAt?_append (before : List Char) (c : Char) (after : List Char) :
    charAt? (before ++ c :: after) (before.length + 1) = some c := by
  simp [charAt?]

/-- The characters of a text in its columns are found in a longer text further on. -/
lemma Text.charAt?_context {text : List Char} {column : Nat} {c : Char}
    (h : charAt? text column = some c) (before : List Char) (d : Char) (after : List Char) :
    charAt? (before ++ d :: (text ++ after)) (before.length + 1 + column) = some c := by
  cases column with
  | zero => cases h
  | succ k =>
    rw [charAt?] at h
    have hk := (List.getElem?_eq_some_iff.1 h).1
    rw [← Nat.add_assoc, charAt?, List.getElem?_append_right (by omega), Nat.add_assoc,
      Nat.add_sub_cancel_left, Nat.add_comm 1, List.getElem?_cons_succ,
      List.getElem?_append_left hk, h]

/-- A quoted run of the text, read from left to right: `first` and `last` are the columns of the
quote characters around it. -/
def Text.IsQuotedRun (text : List Char) (first last : Nat) : Prop :=
  ∃ before q run after, text = before ++ (q :: run ++ q :: after) ∧ markAfter none before = none ∧
    isQuote q = true ∧ q ∉ run ∧ first = before.length + 1 ∧ last = first + run.length + 1

namespace ArgumentError

/-- The character that an error names. -/
def mark : ArgumentError → Char
  | openQuote quote _ => quote
  | openBracket _ => listOpen
  | strayBracket _ => listClose

/-- The error is about the character between two parts of a text: no quoted run is open before it,
and if it is an open quote, its quote character does not come again. -/
structure PointsBetween (e : ArgumentError) (before after : List Char) : Prop where
  column : e.column = before.length + 1
  outside : markAfter none before = none
  openQuote : ∀ quote column, e = .openQuote quote column → isQuote quote = true ∧ quote ∉ after

/-- The error is about a character of the text. -/
def PointsInto (e : ArgumentError) (text : List Char) : Prop :=
  ∃ before after, text = before ++ e.mark :: after ∧ e.PointsBetween before after

variable {e : ArgumentError} {text : List Char}

lemma PointsInto.one_le_column (h : e.PointsInto text) : 1 ≤ e.column := by
  obtain ⟨before, after, -, h⟩ := h
  simp [h.column]

lemma PointsInto.column_le_length (h : e.PointsInto text) : e.column ≤ text.length := by
  obtain ⟨before, after, rfl, h⟩ := h
  simp [h.column]

/-- The character is not in a quoted run that is closed, nor does it open or close one. -/
lemma PointsInto.outside_isQuotedRun (h : e.PointsInto text) {first last : Nat}
    (hrun : Text.IsQuotedRun text first last) : e.column < first ∨ last < e.column := by
  obtain ⟨before, after, rfl, h⟩ := h
  obtain ⟨start, q, run, rest, htext, hstart, hq, hr, rfl, rfl⟩ := hrun
  by_contra hcolumn
  obtain ⟨hfirst, hlast⟩ := not_or.1 hcolumn
  rw [h.column, Nat.not_lt] at hfirst hlast
  -- the quoted run begins before the character or with it
  obtain ⟨hidden, rfl⟩ : start <+: before := by
    apply List.prefix_of_prefix_length_le ⟨_, htext.symm⟩ ⟨_, rfl⟩
    omega
  rw [List.append_assoc, List.append_cancel_left_eq] at htext
  have houtside := h.outside
  rw [markAfter_append, hstart] at houtside
  cases hidden with
  | nil =>
    obtain ⟨hmark, rfl⟩ := List.cons.inj htext
    cases e with
    | openQuote quote column =>
      obtain rfl : quote = q := hmark
      exact (h.openQuote quote column rfl).2 (by simp)
    | openBracket column | strayBracket column =>
      rw [← hmark] at hq
      cases hq
  | cons c hidden =>
    obtain ⟨rfl, htext⟩ := List.cons.inj htext
    have hwithin : hidden <+: run := by
      apply List.prefix_of_prefix_length_le ⟨_, htext⟩ ⟨_, rfl⟩
      simp only [List.length_append, List.length_cons] at hlast
      omega
    rw [markAfter_quote hq, markAfter_run fun hmem => hr (hwithin.subset hmem)] at houtside
    cases houtside

end ArgumentError

/-! ### In the argument text -/

/-- A fault is about a character of the text. -/
lemma Fault.pointsInto {text : List Char} {e : ArgumentError} (h : Fault text e) :
    e.PointsInto text := by
  cases h with
  | @stray before after h =>
    exact ⟨before, after, rfl, rfl, h.markAfter_eq_none rfl rfl, by simp⟩
  | @quote before run q h hq hr =>
    refine ⟨before, run, rfl, rfl, h.markAfter_eq_none rfl rfl, ?_⟩
    rintro _ _ ⟨⟩
    exact ⟨hq, hr⟩
  | @bracket before inner h hi =>
    exact ⟨before, inner, rfl, rfl, h.markAfter_eq_none rfl rfl, by simp⟩

namespace Argument

/-- No quoted run is open where the content of a list begins. -/
lemma markAfter_listOpen {before lead : List Char} (hbefore : markAfter none before = none)
    (hlead : Text.IsBlankRun lead) (start : List Char) :
    markAfter none (before ++ lead ++ listOpen :: start) = markAfter none start := by
  rw [markAfter_append, markAfter_append, hbefore,
    (Nested.of_isBlankRun hlead).markAfter_eq_none rfl rfl, markAfter_plain rfl]

/-- Every piece of every level stands in the text where its offset says, and no quoted run is open
before it. -/
lemma PieceAt.exists_context {offset : Nat} {text : List Char} {address : List Nat} {p : Piece}
    (h : PieceAt offset text address p) :
    ∃ before after, text = before ++ p.text ++ after ∧ p.offset = offset + before.length ∧
      markAfter none before = none := by
  induction h with
  | here hc hi => exact hc.exists_context _ (List.mem_of_getElem? hi)
  | inside hc hi hlist _ ih =>
    obtain ⟨before, after, rfl, hp, hbefore⟩ := hc.exists_context _ (List.mem_of_getElem? hi)
    obtain ⟨lead, trail, hlead, -, hlist, rfl⟩ := hlist
    obtain ⟨before', after', rfl, hq, hbefore'⟩ := ih
    refine ⟨before ++ lead ++ listOpen :: before', after' ++ listClose :: trail ++ after,
      ?_, ?_, ?_⟩
    · simp [hlist]
    · rw [hq, hp]
      simp only [List.length_append, List.length_cons]
      omega
    · rw [markAfter_listOpen hbefore hlead, hbefore']

/-- The bracket with which a piece closes early is a character of the text. -/
lemma pointsInto_of_closesEarly {text : List Char} {address : List Nat} {p : Piece} {column : Nat}
    (hp : PieceAt 0 text address p) (h : p.ClosesEarly column) :
    (ArgumentError.strayBracket column).PointsInto text := by
  obtain ⟨before, after, rfl, hoffset, hbefore⟩ := hp.exists_context
  obtain ⟨_, start, rest, ⟨lead, trail, hlead, -, hlist, rfl⟩, hstart, rfl⟩ := h
  refine ⟨before ++ lead ++ listOpen :: start, rest ++ listClose :: trail ++ after, ?_, ?_, ?_, ?_⟩
  · simp [hlist, ArgumentError.mark]
  · simp only [ArgumentError.column, hoffset, List.length_append, List.length_cons]
    omega
  · rw [markAfter_listOpen hbefore hlead, hstart.markAfter_eq_none rfl rfl]
  · simp

/-- An error of argument decoding is about a character of the text. -/
theorem pointsInto_of_literals {text : String} {e : ArgumentError} (h : literals text = .error e) :
    e.PointsInto text.toList := by
  rcases nested_or_fault text.toList with hnested | ⟨e', he'⟩
  · obtain ⟨pieces, hsplit⟩ := (Piece.exists_split_iff_nested 0).2 hnested
    obtain ⟨address, p, column, hfirst, rfl⟩ :=
      exists_firstEarly (split_eq_ok_iff_cuts.1 hsplit) h
    exact pointsInto_of_closesEarly hfirst.pieceAt hfirst.early
  · rw [literals, literalsFrom_of_fault he', ArgumentError.shift_zero, Except.error.injEq] at h
    exact h ▸ he'.pointsInto

/-- An error of argument decoding names the character in its column. -/
theorem charAt?_column {text : String} {e : ArgumentError} (h : literals text = .error e) :
    Text.charAt? text.toList e.column = some e.mark := by
  obtain ⟨before, after, htext, hbetween⟩ := pointsInto_of_literals h
  rw [htext, hbetween.column, Text.charAt?_append]

/-- Decoding reports an open quote only for a text that leaves a quoted run open. -/
lemma ne_openQuote {text : String} {e : ArgumentError} (hquote : markAfter none text.toList = none)
    (h : literals text = .error e) (q : Char) (column : Nat) : e ≠ .openQuote q column := by
  rintro rfl
  obtain ⟨before, after, htext, hbetween⟩ := pointsInto_of_literals h
  obtain ⟨hq, hafter⟩ := hbetween.openQuote q column rfl
  rw [htext, markAfter_append, hbetween.outside, ArgumentError.mark, markAfter_quote hq,
    markAfter_run hafter] at hquote
  cases hquote

/-- The column of an error of argument decoding is that of a character of the text, and it is the
quote character or the bracket that the error names. No quoted run of the text which is closed holds
this character or begins or ends with it. -/
theorem literals_error_column (text : String) (e : ArgumentError) (h : literals text = .error e) :
    1 ≤ e.column ∧ e.column ≤ text.toList.length ∧
      (∀ quote column, e = .openQuote quote column →
        isQuote quote = true ∧ Text.charAt? text.toList column = some quote) ∧
      (∀ column, e = .openBracket column → Text.charAt? text.toList column = some '[') ∧
      (∀ column, e = .strayBracket column → Text.charAt? text.toList column = some ']') ∧
      ∀ first last, Text.IsQuotedRun text.toList first last →
        e.column < first ∨ last < e.column := by
  have hpoints := pointsInto_of_literals h
  have hmark := charAt?_column h
  refine ⟨hpoints.one_le_column, hpoints.column_le_length, ?_, ?_, ?_, ?_⟩
  · rintro quote column rfl
    obtain ⟨before, after, -, hbetween⟩ := hpoints
    exact ⟨(hbetween.openQuote quote column rfl).1, hmark⟩
  · rintro column rfl
    exact hmark
  · rintro column rfl
    exact hmark
  · intro first last hrun
    exact hpoints.outside_isQuotedRun hrun

/-- A quote that is left open in an inner list, behind a quoted run and a character of two bytes -/
theorem literals_error_column_inner :
    literals "['é', [\"x]" = .error (.openQuote '"' 8) ∧
      Text.charAt? "['é', [\"x]".toList 8 = some '"' ∧
      Text.IsQuotedRun "['é', [\"x]".toList 2 4 ∧ (8 < 2 ∨ 4 < 8) := by
  have hbefore : HalfNested listOpen listClose "['é', [".toList := by
    refine .opened (@HalfNested.quoted _ _ '\'' ['é'] _ (by decide) (by decide) ?_)
    exact .plain (by decide) (by decide) (by decide)
      (.plain (by decide) (by decide) (by decide) (.opened .nil))
  have hfault : Fault "['é', [\"x]".toList (.openQuote '"' 8) :=
    @Fault.quote _ "x]".toList _ hbefore (by decide) (by decide)
  have hliterals : literals "['é', [\"x]" = .error (.openQuote '"' 8) :=
    literalsFrom_of_fault hfault 0
  have hrun : Text.IsQuotedRun "['é', [\"x]".toList 2 4 :=
    ⟨['['], '\'', ['é'], ", [\"x]".toList, rfl, rfl, by decide, by decide, rfl, rfl⟩
  obtain ⟨-, -, hquote, -, -, houtside⟩ := literals_error_column _ _ hliterals
  exact ⟨hliterals, (hquote _ _ rfl).2, hrun, houtside 2 4 hrun⟩

end Argument

/-! ### In the expression -/

/-- The identifier that a text begins with: all letters and digits at its start. -/
def leadingIdentifier (text : List Char) : List Char :=
  text.takeWhile Char.isAlphanum

lemma leadingIdentifier_append {name rest : List Char} (hname : isIdentifier name = true)
    (hrest : ∀ c ∈ rest.head?, c.isAlphanum = false) : leadingIdentifier (name ++ rest) = name := by
  obtain ⟨first, later, hcons, hfirst, rfl, -⟩ := Expression.span_identifier hname hrest
  rw [hcons, leadingIdentifier, List.takeWhile_cons_of_pos (by simp [Char.isAlphanum, hfirst])]

/-- A text fails with an error of argument decoding if it is a call and decoding its body fails. -/
lemma Format.ofText_eq_invalidArguments_iff {text expression : String} {cause : ArgumentError} :
    ofText text = .error (.invalidArguments expression cause) ↔
      expression = text ∧ ∃ name body, Expression.ofText text = .ok ⟨name, some body⟩ ∧
        Argument.literals body = .error cause := by
  cases he : Expression.ofText text with
  | error e => simp [ofText, he, FormatError.ofExpression]
  | ok e =>
    obtain ⟨name, _ | body⟩ := e
    · simp [ofText, he]
    · cases hbody : Argument.literals body with
      | error e => simp [ofText, he, hbody, eq_comm]
      | ok xs => simp [ofText, he, hbody]

namespace Parser

variable {ρ : Type} [Registry ρ]

/-- An error of argument decoding comes from the text and not from the registry. -/
lemma ofText_eq_error_of_parse {p : Parser ρ} {text expression : String} {cause : ArgumentError}
    (h : p.parse text = .error (.invalidArguments expression cause)) :
    Format.ofText text = .error (.invalidArguments expression cause) := by
  rw [parse_eq_fst_parseAsking] at h
  cases hp : p.registry? with
  | none =>
    rw [parseAsking_of_none hp] at h
    cases h
  | some registry =>
    cases htext : Format.ofText text with
    | error e =>
      rw [parseAsking_of_error hp htext] at h
      exact h
    | ok f =>
      rw [parseAsking_of_ok hp htext] at h
      dsimp only at h
      split_ifs at h
      cases f <;> cases h

/-- An expression with a quoted run that is left open behind its parenthesis is malformed. -/
lemma parse_of_openQuote {p : Parser ρ} {text : String} {name rest : List Char}
    (htext : text.toList = name ++ callOpen :: rest) (hname : isIdentifier name = true)
    (hrest : markAfter none rest ≠ none) (hp : p.isLoaded = true) :
    ∃ column detail, p.parse text = .error (.malformed column detail) := by
  obtain ⟨registry, hregistry⟩ := Option.isSome_iff_exists.1 hp
  cases he : Expression.ofText text with
  | error e =>
    rw [parse_of_error hregistry (Format.ofText_of_expression_error he)]
    exact ⟨e.column, e.fault.detail, rfl⟩
  | ok e =>
    exfalso
    obtain ⟨hexpression, hwell⟩ := Expression.ofText_eq_ok_iff.1 he
    obtain ⟨name', arguments⟩ := e
    -- the leading identifier tells the name, and so where the parenthesis stands
    have hleading : leadingIdentifier text.toList = name := by
      rw [htext]
      exact leadingIdentifier_append hname (by simp; decide)
    cases arguments with
    | none =>
      rw [Expression.text, ← List.append_nil name'.toList] at hexpression
      rw [hexpression, leadingIdentifier_append hwell.name (by simp)] at hleading
      rw [hexpression, hleading, List.append_cancel_left_eq] at htext
      cases htext
    | some body =>
      rw [Expression.text, List.append_assoc, List.cons_append] at hexpression
      rw [hexpression, leadingIdentifier_append hwell.name (by simp; decide)] at hleading
      rw [hexpression, hleading, List.append_cancel_left_eq, List.cons.injEq] at htext
      have hbody := (hwell.arguments body rfl).markAfter_eq_none rfl rfl
      rw [← htext.2, markAfter_append, hbody] at hrest
      exact hrest rfl

/-- When the arguments of an expression cannot be decoded, the error holds the whole expression and
never an open quote. Its column, counted from behind the identifier at the start of the expression
and the parenthesis after it, is that of the bracket that it names. An expression with a quoted run
that is left open is malformed instead. -/
theorem parse_invalidArguments_bracket (p : Parser ρ) (text : String) :
    (∀ expression cause, p.parse text = .error (.invalidArguments expression cause) →
      expression = text ∧ (∀ quote column, cause ≠ .openQuote quote column) ∧
        isIdentifier (leadingIdentifier text.toList) = true ∧
        (∀ column, cause = .strayBracket column →
          Text.charAt? text.toList ((leadingIdentifier text.toList).length + 1 + column)
            = some ']') ∧
        ∀ column, cause = .openBracket column →
          Text.charAt? text.toList ((leadingIdentifier text.toList).length + 1 + column)
            = some '[') ∧
    ∀ name rest, text.toList = name ++ '(' :: rest → isIdentifier name = true →
      markAfter none rest ≠ none → p.isLoaded = true →
        ∃ column detail, p.parse text = .error (.malformed column detail) := by
  refine ⟨?_, fun name rest => parse_of_openQuote⟩
  intro expression cause h
  obtain ⟨rfl, name, body, he, hbody⟩ :=
    Format.ofText_eq_invalidArguments_iff.1 (ofText_eq_error_of_parse h)
  obtain ⟨htext, hname, hnested⟩ := Expression.ofText_eq_ok_iff.1 he
  have hleading : leadingIdentifier expression.toList = name.toList := by
    rw [htext, Expression.text, List.append_assoc]
    exact leadingIdentifier_append hname (by simp; decide)
  -- a column of the body is found in the expression behind the name and the parenthesis
  have hcolumn : ∀ {column c}, Text.charAt? body.toList column = some c →
      Text.charAt? expression.toList ((leadingIdentifier expression.toList).length + 1 + column)
        = some c := by
    intro column c hc
    rw [hleading, htext, Expression.text, List.append_assoc, List.cons_append]
    exact Text.charAt?_context hc name.toList callOpen [callClose]
  have hmark := hcolumn (Argument.charAt?_column hbody)
  have hquote : markAfter none body.toList = none :=
    (hnested body rfl).markAfter_eq_none rfl rfl
  refine ⟨rfl, Argument.ne_openQuote hquote hbody, by rw [hleading, hname], ?_, ?_⟩
  · rintro column rfl
    exact hmark
  · rintro column rfl
    exact hmark

theorem parse_invalidArguments_bracket_inner :
    (ofRegistry fun _ : Query => true).1.parse "pick('a]', [1]2[3])"
        = .error (.invalidArguments "pick('a]', [1]2[3])" (.strayBracket 9)) ∧
      Text.charAt? "pick('a]', [1]2[3])".toList (4 + 1 + 9) = some ']' := by
  have hfirst : Piece.literal ⟨"'a]'".toList, 0⟩ = .ok (.string "a]") :=
    Piece.literal_of_ofText rfl
  have hsecond : Piece.ClosesEarly ⟨" [1]2[3]".toList, 5⟩ 9 :=
    ⟨7, ['1'], "2[3".toList, ⟨[' '], [], Text.isBlankRun_space, Text.isBlankRun_nil, rfl, rfl⟩,
      .singleton (by decide), rfl⟩
  have hliterals : Argument.literals "'a]', [1]2[3]" = .error (.strayBracket 9) := by
    have hcuts : Argument.Cuts 0 "'a]', [1]2[3]".toList
        [⟨"'a]'".toList, 0⟩, ⟨" [1]2[3]".toList, 5⟩] :=
      Argument.split_eq_ok_iff_cuts.1 rfl
    rw [Argument.literals, Argument.literalsFrom_of_cuts hcuts, mapM_eq_error_iff]
    exact ⟨[_], _, [], rfl, by simpa using ⟨_, hfirst⟩, hsecond.literal⟩
  have hparse : (ofRegistry fun _ : Query => true).1.parse "pick('a]', [1]2[3])"
      = .error (.invalidArguments "pick('a]', [1]2[3])" (.strayBracket 9)) := by
    rw [parse_ofRegistry fun _ => rfl, Format.ofText_eq_invalidArguments_iff]
    exact ⟨rfl, "pick", "'a]', [1]2[3]", rfl, hliterals⟩
  obtain ⟨-, -, -, hbracket, -⟩ := (parse_invalidArguments_bracket _ _).1 _ _ hparse
  exact ⟨hparse, hbracket 9 rfl⟩

end Parser

end FormatExpr
