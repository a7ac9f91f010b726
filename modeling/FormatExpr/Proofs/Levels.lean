import FormatExpr.Proofs.Decoding
import FormatExpr.Proofs.PieceGrammar

/-!
# Levels of an argument text

A text is cut into pieces, the content of every piece that is a list is cut into pieces again, and
so on. `Argument.PieceAt` gives every piece of every level an address: its place among the pieces of
its level, after the address of the list it stands in. The lexicographic order of addresses is
pre-order: a list comes before the pieces in it, and these come before the pieces to its right.

A text without a fault can fail in one way only: some piece looks like a list, but its first bracket
is closed before its last character (`Piece.ClosesEarly`). The error is the bracket that does so in
the first such piece (`literalsFrom_eq_error_iff`).
-/

namespace FormatExpr

lemma Nested.of_isBlankRun {text : List Char} (h : Text.IsBlankRun text) :
    Nested listOpen listClose text := by
  apply of_plain
  intro c hc
  obtain ⟨hq, ho, hclose, -⟩ := Text.plain_of_isBlank (h c hc)
  exact ⟨hq, ho, hclose⟩

namespace Piece

variable {p : Piece} {inner column : Nat} {content : List Char}

/-! ### Lists -/

/-- The piece is `content` in brackets between two blank runs, and `inner` characters stand before
the content. -/
def IsList (p : Piece) (inner : Nat) (content : List Char) : Prop :=
  ∃ lead trail, Text.IsBlankRun lead ∧ Text.IsBlankRun trail ∧
    p.text = lead ++ (listOpen :: content ++ [listClose]) ++ trail ∧
    inner = p.offset + lead.length + 1

/-- The piece begins and ends with brackets, but the first one is closed in `column`, before the
last character. -/
def ClosesEarly (p : Piece) (column : Nat) : Prop :=
  ∃ inner before after, p.IsList inner (before ++ listClose :: after) ∧
    Nested listOpen listClose before ∧ column = inner + before.length + 1

lemma IsList.trimmed (h : p.IsList inner content) :
    p.trimmed.text = listOpen :: content ++ [listClose] ∧ p.trimmed.offset + 1 = inner := by
  obtain ⟨lead, trail, hlead, htrail, htext, rfl⟩ := h
  have htight : Text.IsTight (listOpen :: content ++ [listClose]) :=
    Text.isTight_between (by decide) (by decide) content
  have hstart : Text.trimStart p.text = (listOpen :: content ++ [listClose]) ++ trail := by
    rw [htext, List.append_assoc, Text.trimStart_append hlead]
    exact Text.trimStart_eq_self (by simp; decide)
  refine ⟨?_, ?_⟩
  · change Text.trim p.text = _
    rw [htext, Text.trim_append hlead htrail htight]
  · simp only [Piece.trimmed, hstart]
    rw [htext]
    simp only [List.length_append]
    omega

lemma exists_isList_of_token (h : Token.ofText (Text.trim p.text) = .list content) :
    p.IsList (p.trimmed.offset + 1) content := by
  obtain ⟨lead, trail, hlead, htrail, htext, -⟩ := Text.exists_trim p.text
  obtain ⟨q, s, htoken, -⟩ | ⟨content', htoken, hcore⟩ | htoken := Token.of_ofText h
  · cases htoken
  · cases htoken
    rw [hcore] at htext
    have hlist : p.IsList (p.offset + lead.length + 1) content :=
      ⟨lead, trail, hlead, htrail, htext, rfl⟩
    rwa [hlist.trimmed.2]
  · cases htoken

/-- The literal of a list is made of the literals of its content. -/
lemma literal_of_isList (h : p.IsList inner content) :
    p.literal = if content.all Text.isBlank then .ok (.list [])
      else (Argument.literalsFrom inner content).map .list := by
  have htoken : Token.ofText (Text.trim p.text) = .list content := by
    change Token.ofText p.trimmed.text = _
    rw [h.trimmed.1, Token.ofText_bracketed]
  rw [literal_of_list htoken, h.trimmed.2]

/-- A blank text has one literal, the empty string. -/
lemma literalsFrom_of_blank (h : content.all Text.isBlank = true) (offset : Nat) :
    Argument.literalsFrom offset content = .ok [.string ""] := by
  rw [List.all_eq_true] at h
  have htrim : Text.trim content = [] := by
    simpa using @Text.trim_append content [] [] h Text.isBlankRun_nil ⟨by simp, by simp⟩
  refine Argument.literalsFrom_eq_ok_iff.2 (.last (.of_isBlankRun h) (literal_of_ofText ?_))
  rw [htrim]
  rfl

/-- A piece fails only if it is a list, and with the error of its content. -/
theorem literal_eq_error_iff {e : ArgumentError} :
    p.literal = .error e ↔
      ∃ inner content, p.IsList inner content ∧ Argument.literalsFrom inner content = .error e := by
  constructor
  · intro h
    cases htoken : Token.ofText (Text.trim p.text) with
    | literal x =>
      rw [literal_of_ofText htoken] at h
      cases h
    | list content =>
      have hlist := exists_isList_of_token htoken
      refine ⟨_, content, hlist, ?_⟩
      rw [literal_of_isList hlist] at h
      split_ifs at h
      cases hitems : Argument.literalsFrom (p.trimmed.offset + 1) content with
      | ok items =>
        rw [hitems] at h
        cases h
      | error e' =>
        rw [hitems] at h
        cases h
        rfl
  · rintro ⟨inner, content, hlist, herror⟩
    have hblank : ¬content.all Text.isBlank = true := by
      intro hblank
      rw [literalsFrom_of_blank hblank] at herror
      cases herror
    rw [literal_of_isList hlist, if_neg hblank, herror]
    rfl

lemma IsList.length_lt (h : p.IsList inner content) : content.length < p.text.length := by
  obtain ⟨lead, trail, -, -, htext, -⟩ := h
  rw [htext]
  simp only [List.length_append, List.length_cons]
  omega

/-- A piece is a list in one way only. -/
lemma IsList.unique {inner' : Nat} {content' : List Char} (h : p.IsList inner content)
    (h' : p.IsList inner' content') : inner = inner' ∧ content = content' := by
  refine ⟨by rw [← h.trimmed.2, ← h'.trimmed.2], ?_⟩
  have htext := h.trimmed.1.symm.trans h'.trimmed.1
  simpa using htext

end Piece

namespace Argument

variable {offset : Nat} {text : List Char} {pieces : List Piece}

/-! ### Pieces of one level -/

/-- The pieces that a text is cut into at the separators outside of quotes and brackets. -/
inductive Cuts : Nat → List Char → List Piece → Prop where
  | last {offset : Nat} {text : List Char} (h : OnePiece text) : Cuts offset text [⟨text, offset⟩]
  | cons {offset : Nat} {first rest : List Char} {pieces : List Piece} (h : OnePiece first)
      (hrest : Cuts (offset + first.length + 1) rest pieces) :
      Cuts offset (first ++ separator :: rest) (⟨first, offset⟩ :: pieces)

/-- The splitter cuts a text where the grammar says. -/
theorem split_eq_ok_iff_cuts : Piece.split offset text = .ok pieces ↔ Cuts offset text pieces := by
  constructor
  · intro h
    induction pieces generalizing offset text with
    | nil => exact absurd rfl (Piece.ne_nil_of_split h)
    | cons p later ih =>
      obtain ⟨first, later', hpieces, hfirst, hlater⟩ := Piece.split_eq_ok_iff.1 h
      obtain ⟨rfl, rfl⟩ := List.cons.inj hpieces
      have hfirst := Piece.whole_iff_onePiece.1 hfirst
      rcases hlater with ⟨rfl, rfl⟩ | ⟨rest, rfl, hrest⟩
      · exact .last hfirst
      · exact .cons hfirst (ih hrest)
  · intro h
    induction h with
    | last h =>
      exact Piece.split_eq_ok_iff.2 ⟨_, [], rfl, Piece.whole_iff_onePiece.2 h, .inl ⟨rfl, rfl⟩⟩
    | cons h _ ih =>
      exact Piece.split_eq_ok_iff.2
        ⟨_, _, rfl, Piece.whole_iff_onePiece.2 h, .inr ⟨_, rfl, ih⟩⟩

/-- Every piece is one piece. -/
lemma Cuts.onePiece (h : Cuts offset text pieces) : ∀ p ∈ pieces, OnePiece p.text := by
  induction h with
  | last h => simpa using h
  | cons h _ ih => exact List.forall_mem_cons.2 ⟨h, ih⟩

/-- Every piece stands in the text where its offset says, and no quoted run is open before it. -/
lemma Cuts.exists_context (h : Cuts offset text pieces) :
    ∀ p ∈ pieces, ∃ before after, text = before ++ p.text ++ after ∧
      p.offset = offset + before.length ∧ markAfter none before = none := by
  induction h with
  | last h =>
    rw [List.forall_mem_singleton]
    exact ⟨[], [], by simp, rfl, rfl⟩
  | @cons offset first rest pieces hfirst _ ih =>
    refine List.forall_mem_cons.2 ⟨⟨[], separator :: rest, by simp, rfl, rfl⟩, ?_⟩
    intro p hp
    obtain ⟨before, after, htext, hoffset, hquote⟩ := ih p hp
    refine ⟨first ++ separator :: before, after, by simp [htext], ?_, ?_⟩
    · rw [hoffset, List.length_append, List.length_cons]
      omega
    · rw [markAfter_append, hfirst.nested.markAfter_eq_none rfl rfl, markAfter_plain rfl, hquote]

/-! ### Pieces of all levels -/

/-- The pieces of a text and of the lists in it by their addresses. -/
inductive PieceAt : Nat → List Char → List Nat → Piece → Prop where
  | here {offset : Nat} {text : List Char} {pieces : List Piece} {i : Nat} {p : Piece}
      (hc : Cuts offset text pieces) (hi : pieces[i]? = some p) : PieceAt offset text [i] p
  | inside {offset inner : Nat} {text content : List Char} {pieces : List Piece} {i : Nat}
      {p q : Piece} {address : List Nat} (hc : Cuts offset text pieces) (hi : pieces[i]? = some p)
      (hp : p.IsList inner content) (h : PieceAt inner content address q) :
      PieceAt offset text (i :: address) q

/-- Pre-order of addresses: a piece comes before the pieces in it, and all of these come before the
next piece of its level. -/
def Precedes (address address' : List Nat) : Prop :=
  List.Lex (· < ·) address address'

/-- The piece at the address closes early in `column`, and no piece before it closes early. -/
structure FirstEarly (offset : Nat) (text : List Char) (address : List Nat) (p : Piece)
    (column : Nat) : Prop where
  pieceAt : PieceAt offset text address p
  early : p.ClosesEarly column
  first : ∀ {address' : List Nat} {p' : Piece} {column' : Nat},
    PieceAt offset text address' p' → Precedes address' address → ¬p'.ClosesEarly column'

lemma Cuts.unique {pieces' : List Piece} (h : Cuts offset text pieces)
    (h' : Cuts offset text pieces') : pieces = pieces' := by
  rw [← split_eq_ok_iff_cuts] at h h'
  rw [h] at h'
  exact Except.ok.inj h'

lemma PieceAt.unique {address : List Nat} {p p' : Piece} (h : PieceAt offset text address p)
    (h' : PieceAt offset text address p') : p = p' := by
  induction h with
  | here hc hi =>
    cases h' with
    | here hc' hi' =>
      rw [hc.unique hc', hi'] at hi
      exact (Option.some.inj hi).symm
    | inside _ _ _ h' => cases h'
  | inside hc hi hp h ih =>
    cases h' with
    | here => cases h
    | inside hc' hi' hp' h' =>
      rw [hc.unique hc', hi', Option.some.injEq] at hi
      obtain ⟨rfl, rfl⟩ := hp.unique (hi ▸ hp')
      exact ih h'

/-! ### Failing -/

/-- A text with a fault is refused with this fault. -/
lemma literalsFrom_of_fault {e : ArgumentError} (h : Fault text e) (offset : Nat) :
    literalsFrom offset text = .error (e.shift offset) := by
  rw [literalsFrom_eq, Piece.split_of_fault h]
  rfl

lemma literalsFrom_of_cuts (h : Cuts offset text pieces) :
    literalsFrom offset text = pieces.mapM Piece.literal := by
  rw [literalsFrom_eq, split_eq_ok_iff_cuts.2 h]
  rfl

/-- A text that has literals is cut into pieces that have literals. -/
lemma literal_of_literalsFrom {xs : List Literal} (h : literalsFrom offset text = .ok xs)
    (hc : Cuts offset text pieces) : ∀ p ∈ pieces, ∃ x, p.literal = .ok x := by
  rw [literalsFrom_of_cuts hc, mapM_eq_ok_iff] at h
  intro p hp
  obtain ⟨i, hi, rfl⟩ := List.getElem_of_mem hp
  exact ⟨_, h.get hi (by rw [← h.length_eq]; exact hi)⟩

end Argument

namespace Piece

variable {p : Piece} {inner column : Nat} {content : List Char}

/-- The content of a list that has a literal has literals. -/
lemma IsList.literalsFrom {x : Literal} (h : p.IsList inner content) (hx : p.literal = .ok x) :
    ∃ xs, Argument.literalsFrom inner content = .ok xs := by
  cases hcontent : Argument.literalsFrom inner content with
  | ok xs => exact ⟨xs, rfl⟩
  | error e =>
    rw [literal_eq_error_iff.2 ⟨inner, content, h, hcontent⟩] at hx
    cases hx

/-- A piece that closes early fails at the bracket that does so. -/
lemma ClosesEarly.literal (h : p.ClosesEarly column) :
    p.literal = .error (.strayBracket column) := by
  obtain ⟨inner, before, after, hlist, hbefore, rfl⟩ := h
  have herror := Argument.literalsFrom_of_fault (@Fault.stray before after hbefore) inner
  rw [ArgumentError.shift, Nat.add_comm _ inner, ← Nat.add_assoc] at herror
  exact literal_eq_error_iff.2 ⟨inner, _, hlist, herror⟩

lemma ClosesEarly.unique {column' : Nat} (h : p.ClosesEarly column) (h' : p.ClosesEarly column') :
    column = column' := by
  have herror := h.literal.symm.trans h'.literal
  simpa using herror

/-- A list whose content can be cut is closed by its last character. -/
lemma IsList.not_closesEarly (h : p.IsList inner content)
    (hnested : Nested listOpen listClose content) : ¬p.ClosesEarly column := by
  rintro ⟨inner', before, after, hlist, hbefore, -⟩
  obtain ⟨rfl, rfl⟩ := h.unique hlist
  obtain ⟨pieces, hsplit⟩ := (exists_split_iff_nested 0).2 hnested
  rw [split_of_fault (.stray hbefore)] at hsplit
  cases hsplit

/-- Inside a piece the only fault of a list is a stray bracket: its quoted runs end and its brackets
are closed before the list ends. -/
lemma IsList.stray_of_fault {e : ArgumentError} (hp : OnePiece p.text) (h : p.IsList inner content)
    (he : Fault content e) :
    ∃ before after, content = before ++ listClose :: after ∧ Nested listOpen listClose before := by
  obtain ⟨lead, trail, hlead, htrail, htext, rfl⟩ := h
  have hscan := scan_of_nested hp.nested 1
  rw [htext, List.append_assoc, scan_nested_append (.of_isBlankRun hlead), List.append_assoc,
    List.cons_append, scan_open] at hscan
  cases he with
  | stray h => exact ⟨_, _, rfl, h⟩
  | @quote before run q h hq hr =>
    exfalso
    -- the quoted run would hide the closing bracket of the list
    have hhidden : q ∉ run ++ ([listClose] ++ trail) := by
      have hclose : q ≠ listClose := by rintro rfl; revert hq; decide
      simp [hr, hclose, htrail.notMem_of_isQuote hq]
    obtain ⟨opened, happend⟩ := scan_halfNested_append h [1 + lead.length] (1 + lead.length + 1)
    rw [List.append_assoc, happend, List.cons_append, scan_quote hq,
      ← List.append_nil (run ++ _), @scan_run _ ⟨q, _⟩ hhidden] at hscan
    cases hscan
  | @bracket before inside h hi =>
    exfalso
    -- the closing bracket of the list would close the inner one
    obtain ⟨opened, happend⟩ := scan_halfNested_append h [1 + lead.length] (1 + lead.length + 1)
    rw [List.append_assoc, happend, List.cons_append, scan_open, scan_nested_append hi,
      List.cons_append, scan_close, List.nil_append, ← List.append_nil trail,
      scan_nested_append (.of_isBlankRun htrail)] at hscan
    cases opened <;> cases hscan

end Piece

namespace Argument

variable {offset column : Nat} {text : List Char} {pieces : List Piece} {address : List Nat}
  {p : Piece}

/-- No piece of a text that has literals closes early. -/
lemma not_closesEarly_of_literalsFrom {xs : List Literal} (h : literalsFrom offset text = .ok xs)
    (hp : PieceAt offset text address p) : ¬p.ClosesEarly column := by
  induction hp generalizing xs with
  | here hc hi =>
    intro hearly
    obtain ⟨x, hx⟩ := literal_of_literalsFrom h hc _ (List.mem_of_getElem? hi)
    rw [hearly.literal] at hx
    cases hx
  | inside hc hi hlist _ ih =>
    obtain ⟨x, hx⟩ := literal_of_literalsFrom h hc _ (List.mem_of_getElem? hi)
    obtain ⟨ys, hys⟩ := hlist.literalsFrom hx
    exact ih hys

/-- No piece inside a piece that has a literal closes early. -/
lemma not_closesEarly_of_literal {i : Nat} {x : Literal} {q : Piece}
    (hc : Cuts offset text pieces) (hi : pieces[i]? = some p) (hx : p.literal = .ok x)
    (hq : PieceAt offset text (i :: address) q) : ¬q.ClosesEarly column := by
  cases hq with
  | here hc' hi' =>
    rw [hc'.unique hc, hi, Option.some.injEq] at hi'
    intro hearly
    rw [hi', hearly.literal] at hx
    cases hx
  | inside hc' hi' hlist h =>
    rw [hc'.unique hc, hi, Option.some.injEq] at hi'
    subst hi'
    obtain ⟨ys, hys⟩ := hlist.literalsFrom hx
    exact not_closesEarly_of_literalsFrom hys h

/-- If all pieces to the left have literals, a piece is the first to close early if it is the first
among those at its place of the level. -/
lemma firstEarly_of_level {before after : List Piece} {q : Piece}
    (hc : Cuts offset text (before ++ p :: after)) (hbefore : ∀ b ∈ before, ∃ y, b.literal = .ok y)
    (hq : PieceAt offset text (before.length :: address) q) (hearly : q.ClosesEarly column)
    (hfirst : ∀ {address' : List Nat} {q' : Piece} {column' : Nat},
      PieceAt offset text (before.length :: address') q' → Precedes address' address →
        ¬q'.ClosesEarly column') :
    FirstEarly offset text (before.length :: address) q column := by
  refine ⟨hq, hearly, ?_⟩
  intro address' q' column' hq' hprecedes
  cases hprecedes with
  | nil => cases hq'
  | cons h => exact hfirst hq' h
  | @rel i _ _ _ h =>
    have hi : (before ++ p :: after)[i]? = some before[i] := by
      rw [List.getElem?_append_left h, List.getElem?_eq_getElem h]
    obtain ⟨y, hy⟩ := hbefore before[i] (List.getElem_mem h)
    exact not_closesEarly_of_literal hc hi hy hq'

/-- If a text without a fault has no literals, some piece closes early, and the error is the bracket
that does so in the first such piece. -/
theorem exists_firstEarly {e : ArgumentError} (hc : Cuts offset text pieces)
    (h : literalsFrom offset text = .error e) :
    ∃ address p column, FirstEarly offset text address p column ∧ e = .strayBracket column := by
  induction hn : text.length using Nat.strong_induction_on generalizing offset text pieces with
  | _ n ih =>
    subst hn
    have hpieces := h
    rw [literalsFrom_of_cuts hc, mapM_eq_error_iff] at hpieces
    obtain ⟨before, p, after, rfl, hbefore, hp⟩ := hpieces
    have hi : (before ++ p :: after)[before.length]? = some p := by simp
    obtain ⟨inner, content, hlist, hcontent⟩ := Piece.literal_eq_error_iff.1 hp
    rcases nested_or_fault content with hnested | ⟨e', he'⟩
    · -- the content can be cut, so that the error comes from a level further in
      obtain ⟨pieces, hsplit⟩ := (Piece.exists_split_iff_nested inner).2 hnested
      have hcuts := split_eq_ok_iff_cuts.1 hsplit
      have hlt : content.length < text.length := by
        have hlist := hlist.length_lt
        have hmem :=
          Piece.length_le_of_mem_split (split_eq_ok_iff_cuts.2 hc) (List.mem_of_getElem? hi)
        omega
      obtain ⟨address, q, column, hfirst, rfl⟩ := ih _ hlt hcuts hcontent rfl
      refine ⟨before.length :: address, q, column, ?_, rfl⟩
      refine firstEarly_of_level hc hbefore (.inside hc hi hlist hfirst.pieceAt) hfirst.early ?_
      intro address' q' column' hq' hprecedes
      cases hq' with
      | here hc' hi' =>
        rw [hc'.unique hc, hi, Option.some.injEq] at hi'
        exact hi' ▸ hlist.not_closesEarly hnested
      | inside hc' hi' hlist' h' =>
        rw [hc'.unique hc, hi, Option.some.injEq] at hi'
        subst hi'
        obtain ⟨rfl, rfl⟩ := hlist.unique hlist'
        exact hfirst.first h' hprecedes
    · -- the content has a fault itself
      have hmem := hc.onePiece p (List.mem_of_getElem? hi)
      obtain ⟨start, rest, rfl, hstart⟩ := hlist.stray_of_fault hmem he'
      have hearly : p.ClosesEarly (inner + start.length + 1) :=
        ⟨inner, start, rest, hlist, hstart, rfl⟩
      refine ⟨[before.length], p, inner + start.length + 1, ?_, ?_⟩
      · refine firstEarly_of_level hc hbefore (.here hc hi) hearly ?_
        intro address' q' column' hq' hprecedes
        cases hprecedes
      · have herror := hp.symm.trans hearly.literal
        simpa using herror

/-- A text without a fault fails exactly with the early bracket of the first piece that closes
early. -/
theorem literalsFrom_eq_error_iff {e : ArgumentError} (hc : Cuts offset text pieces) :
    literalsFrom offset text = .error e ↔
      ∃ address p column, FirstEarly offset text address p column ∧ e = .strayBracket column := by
  refine ⟨exists_firstEarly hc, ?_⟩
  rintro ⟨address, p, column, hfirst, rfl⟩
  cases h : literalsFrom offset text with
  | ok xs => exact absurd hfirst.early (not_closesEarly_of_literalsFrom h hfirst.pieceAt)
  | error e =>
    obtain ⟨address', p', column', hfirst', rfl⟩ := exists_firstEarly hc h
    -- neither of the two addresses precedes the other
    have haddress : address = address' := by
      rcases trichotomous_of (List.Lex (· < ·)) address address' with hlt | heq | hgt
      · exact absurd hfirst.early (hfirst'.first hfirst.pieceAt hlt)
      · exact heq
      · exact absurd hfirst'.early (hfirst.first hfirst'.pieceAt hgt)
    subst haddress
    obtain rfl := hfirst.pieceAt.unique hfirst'.pieceAt
    rw [hfirst.early.unique hfirst'.early]

/-- Decoding fails exactly with the fault of the text, or, if the text has none, with the bracket by
which the first piece that closes early does so. A text has a fault unless it is nested, and a
nested text fails whenever some piece of some level closes early. So no level but the outermost
has any other error than a stray bracket. -/
theorem literals_fails_exactly (text : String) :
    (∀ e, literals text = .error e ↔ Fault text.toList e ∨
      Nested listOpen listClose text.toList ∧ ∃ address p column,
        FirstEarly 0 text.toList address p column ∧ e = .strayBracket column) ∧
    ((∃ e, Fault text.toList e) ↔ ¬Nested listOpen listClose text.toList) ∧
    (Nested listOpen listClose text.toList → ((∃ e, literals text = .error e) ↔
      ∃ address p column, PieceAt 0 text.toList address p ∧ p.ClosesEarly column)) := by
  have hcuts : Nested listOpen listClose text.toList → ∃ pieces, Cuts 0 text.toList pieces := by
    intro hnested
    obtain ⟨pieces, hsplit⟩ := (Piece.exists_split_iff_nested 0).2 hnested
    exact ⟨pieces, split_eq_ok_iff_cuts.1 hsplit⟩
  have hexclusive : ∀ {e}, Fault text.toList e → ¬Nested listOpen listClose text.toList := by
    intro e he hnested
    obtain ⟨pieces, hsplit⟩ := (Piece.exists_split_iff_nested 0).2 hnested
    rw [Piece.split_of_fault he] at hsplit
    cases hsplit
  refine ⟨?_, ?_, ?_⟩
  · intro e
    rcases nested_or_fault text.toList with hnested | ⟨e', he'⟩
    · obtain ⟨pieces, hc⟩ := hcuts hnested
      rw [literals, literalsFrom_eq_error_iff hc]
      constructor
      · intro h
        exact .inr ⟨hnested, h⟩
      · rintro (he | ⟨-, h⟩)
        · exact absurd hnested (hexclusive he)
        · exact h
    · rw [literals, literalsFrom_of_fault he', ArgumentError.shift_zero, Except.error.injEq]
      constructor
      · rintro rfl
        exact .inl he'
      · rintro (he | ⟨hnested, -⟩)
        · have hsplit := Piece.split_eq_error_iff.2 he
          rw [Piece.split_eq_error_iff.2 he', Except.error.injEq] at hsplit
          exact hsplit
        · exact absurd hnested (hexclusive he')
  · constructor
    · rintro ⟨e, he⟩
      exact hexclusive he
    · intro hn
      exact (nested_or_fault text.toList).resolve_left hn
  · intro hnested
    obtain ⟨pieces, hc⟩ := hcuts hnested
    constructor
    · rintro ⟨e, he⟩
      obtain ⟨address, p, column, hfirst, -⟩ := exists_firstEarly hc he
      exact ⟨address, p, column, hfirst.pieceAt, hfirst.early⟩
    · rintro ⟨address, p, column, hp, hearly⟩
      cases h : literals text with
      | error e => exact ⟨e, rfl⟩
      | ok xs => exact absurd hearly (not_closesEarly_of_literalsFrom h hp)

end Argument

end FormatExpr
