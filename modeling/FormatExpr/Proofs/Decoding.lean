import FormatExpr.Argument.Literals
import FormatExpr.Proofs.Splitting
import FormatExpr.Proofs.TokenReading
import FormatExpr.Proofs.Traversal
import FormatExpr.Proofs.Trimming

/-!
# Decoding piece by piece

`Argument.Reads` is the decoder of argument texts as a relation: a whole piece and its literal, and
after a separator the rest of the text. It holds exactly of what the decoder gives
(`literalsFrom_eq_ok_iff`), and so an argument text never has an empty list of literals.

The literal of one piece is that of its token. `Argument.Shape` says what a piece must look like
between its blank runs to have a given literal.
-/

namespace FormatExpr

/-! ### Blank runs -/

lemma Text.plain_of_isBlank {c : Char} (h : isBlank c = true) :
    isQuote c = false ∧ c ≠ listOpen ∧ c ≠ listClose ∧ c ≠ separator := by
  have hne : ∀ d, isBlank d = false → c ≠ d := by
    rintro d hd rfl
    rw [h] at hd
    cases hd
  have hs := hne '\'' (by decide)
  have hd := hne '"' (by decide)
  refine ⟨by simp [isQuote, quotes, hs, hd], ?_, ?_, ?_⟩ <;> exact hne _ (by decide)

/-- There is no quote character among blanks. -/
lemma Text.IsBlankRun.notMem_of_isQuote {text : List Char} (h : IsBlankRun text) {q : Char}
    (hq : isQuote q = true) : q ∉ text := by
  intro hmem
  rw [(plain_of_isBlank (h q hmem)).1] at hq
  cases hq

lemma Piece.Whole.of_isBlankRun {text : List Char} (h : Text.IsBlankRun text) : Whole text :=
  .of_plain fun c hc => Text.plain_of_isBlank (h c hc)

namespace Piece

/-! ### Tokens of pieces -/

/-- A piece whose token is a literal. -/
lemma literal_of_ofText {p : Piece} {x : Literal}
    (h : Token.ofText (Text.trim p.text) = .literal x) : p.literal = .ok x := by
  change Token.ofText p.trimmed.text = _ at h
  rw [Piece.literal, h]

/-- A piece whose token is a list. -/
lemma literal_of_list {p : Piece} {content : List Char}
    (h : Token.ofText (Text.trim p.text) = .list content) :
    p.literal = if content.all Text.isBlank then .ok (.list [])
      else (Argument.literalsFrom (p.trimmed.offset + 1) content).map .list := by
  change Token.ofText p.trimmed.text = _ at h
  rw [Piece.literal, h]

end Piece

namespace Argument

/-! ### Levels -/

/-- The literals of an argument text with `offset` characters before it. -/
inductive Reads : Nat → List Char → List Literal → Prop where
  | last {offset : Nat} {text : List Char} {x : Literal} (hw : Piece.Whole text)
      (hx : Piece.literal ⟨text, offset⟩ = .ok x) : Reads offset text [x]
  | cons {offset : Nat} {text rest : List Char} {x : Literal} {xs : List Literal}
      (hw : Piece.Whole text) (hx : Piece.literal ⟨text, offset⟩ = .ok x)
      (h : Reads (offset + text.length + 1) rest xs) :
      Reads offset (text ++ separator :: rest) (x :: xs)

lemma Reads.ne_nil {offset : Nat} {text : List Char} {xs : List Literal}
    (h : Reads offset text xs) : xs ≠ [] := by
  cases h <;> simp

/-- Every literal that is read is the literal of a piece. -/
lemma Reads.exists_piece {offset : Nat} {text : List Char} {xs : List Literal}
    (h : Reads offset text xs) {x : Literal} (hx : x ∈ xs) :
    ∃ p : Piece, p.literal = .ok x := by
  induction h with
  | last _ hy =>
    obtain rfl := List.mem_singleton.1 hx
    exact ⟨_, hy⟩
  | cons _ hy _ ih =>
    rcases List.mem_cons.1 hx with rfl | hx
    · exact ⟨_, hy⟩
    · exact ih hx

lemma reads_of_split {offset : Nat} {text : List Char} {pieces : List Piece} {xs : List Literal}
    (hsplit : Piece.split offset text = .ok pieces)
    (hxs : List.Forall₂ (fun p x => Piece.literal p = .ok x) pieces xs) :
    Reads offset text xs := by
  induction pieces generalizing offset text xs with
  | nil => exact absurd rfl (Piece.ne_nil_of_split hsplit)
  | cons p later ih =>
    obtain ⟨first, later', hpieces, hfirst, hlater⟩ := Piece.split_eq_ok_iff.1 hsplit
    obtain ⟨rfl, rfl⟩ := List.cons.inj hpieces
    cases hxs with
    | cons hy hys =>
      rcases hlater with ⟨rfl, rfl⟩ | ⟨rest, rfl, hrest⟩
      · cases hys
        exact .last hfirst hy
      · exact .cons hfirst hy (ih hrest hys)

lemma Reads.exists_split {offset : Nat} {text : List Char} {xs : List Literal}
    (h : Reads offset text xs) :
    ∃ pieces, Piece.split offset text = .ok pieces ∧
      List.Forall₂ (fun p x => Piece.literal p = .ok x) pieces xs := by
  induction h with
  | last hw hx =>
    exact ⟨_, Piece.split_eq_ok_iff.2 ⟨_, [], rfl, hw, .inl ⟨rfl, rfl⟩⟩, .cons hx .nil⟩
  | cons hw hx _ ih =>
    obtain ⟨pieces, hsplit, hxs⟩ := ih
    exact ⟨_, Piece.split_eq_ok_iff.2 ⟨_, pieces, rfl, hw, .inr ⟨_, rfl, hsplit⟩⟩, .cons hx hxs⟩

/-- The decoder gives the literals of an argument text and nothing else. -/
theorem literalsFrom_eq_ok_iff {offset : Nat} {text : List Char} {xs : List Literal} :
    literalsFrom offset text = .ok xs ↔ Reads offset text xs := by
  rw [literalsFrom_eq]
  constructor
  · intro h
    cases hsplit : Piece.split offset text with
    | error e =>
      rw [hsplit] at h
      cases h
    | ok pieces =>
      rw [hsplit] at h
      exact reads_of_split hsplit (mapM_eq_ok_iff.1 h)
  · intro h
    obtain ⟨pieces, hsplit, hxs⟩ := h.exists_split
    rw [hsplit]
    exact mapM_eq_ok_iff.2 hxs

/-! ### Pieces -/

/-- What a text without blanks around it looks like if `x` is read from it. -/
inductive Shape : List Char → Literal → Prop where
  | quoted {q : Char} (hq : isQuote q = true) (s : String) :
      Shape (q :: s.toList ++ [q]) (.string s)
  | bare (s : String) : Shape s.toList (.string s)
  | number {word : List Char} {n : Number} (h : Token.number? word = some n) :
      Shape word (.number n)
  | boolean (b : Bool) : Shape (Literal.boolean b).text (.boolean b)
  | emptyList {content : List Char} (h : Text.IsBlankRun content) :
      Shape (listOpen :: content ++ [listClose]) (.list [])
  | list {offset : Nat} {content : List Char} {items : List Literal}
      (h : Reads offset content items) : Shape (listOpen :: content ++ [listClose]) (.list items)

lemma shape_of_ofWord {word : List Char} {x : Literal} (h : Token.ofWord word = x) :
    Shape word x := by
  rcases Token.of_ofWord h with ⟨b, rfl, rfl⟩ | ⟨n, rfl, hn⟩ | rfl
  · exact .boolean b
  · exact .number hn
  · simpa using Shape.bare (String.ofList word)

/-- The text of a piece has the shape of its literal, between two blank runs. -/
theorem shape_of_literal {p : Piece} {x : Literal} (h : p.literal = .ok x) :
    ∃ lead core trail, Text.IsBlankRun lead ∧ Text.IsBlankRun trail ∧ Text.IsTight core ∧
      p.text = lead ++ core ++ trail ∧ Shape core x := by
  obtain ⟨lead, trail, hlead, htrail, htext, htight⟩ := Text.exists_trim p.text
  refine ⟨lead, Text.trim p.text, trail, hlead, htrail, htight, htext, ?_⟩
  obtain ⟨q, s, htoken, hq, hcore⟩ | ⟨content, htoken, hcore⟩ | htoken :=
    @Token.of_ofText (Text.trim p.text) _ rfl
  · rw [Piece.literal_of_ofText htoken] at h
    cases h
    rw [hcore]
    simpa using Shape.quoted hq (String.ofList s)
  · rw [Piece.literal_of_list htoken] at h
    rw [hcore]
    split_ifs at h with hblank
    · cases h
      exact .emptyList (List.all_eq_true.1 hblank)
    · cases hitems : literalsFrom (p.trimmed.offset + 1) content with
      | error e =>
        rw [hitems] at h
        cases h
      | ok items =>
        rw [hitems] at h
        cases h
        exact .list (literalsFrom_eq_ok_iff.1 hitems)
  · rw [Piece.literal_of_ofText htoken] at h
    cases h
    exact shape_of_ofWord rfl

end Argument

end FormatExpr
