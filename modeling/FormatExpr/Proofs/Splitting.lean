import Mathlib
import FormatExpr.Argument.Piece

/-!
# Splitting at separators

`Piece.step` says what one character does to the splitter: it stays in its piece, it cuts the
piece off, or it closes a list that was never opened. Every law of `splitFrom` is an induction
over the text with one case for each kind of step.

A text is *whole* if it is the only piece it is split into. The first piece of every text is
whole, and it ends with the text or at a separator (`split_eq_ok_iff`). A list is whole
whatever its content is split into (`whole_list`). Columns are only passed on: a text with `k` more
characters before it is split at the same places (`splitFrom_shift`).
-/

namespace FormatExpr

/-! ### Moving columns -/

/-- The quoted run in a text with `k` more characters before it. -/
def OpenQuote.shift (k : Nat) (q : OpenQuote) : OpenQuote :=
  ⟨q.mark, q.column + k⟩

lemma OpenQuote.next_shift (k column : Nat) (quote : Option OpenQuote) (c : Char) :
    OpenQuote.next (quote.map (shift k)) (column + k) c
      = (OpenQuote.next quote column c).map (shift k) := by
  cases quote with
  | none => cases hq : isQuote c <;> simp [OpenQuote.next, hq, shift]
  | some q => by_cases hc : c = q.mark <;> simp [OpenQuote.next, hc, shift]

/-- The error in a text with `k` more characters before it. -/
def ArgumentError.shift (k : Nat) : ArgumentError → ArgumentError
  | openQuote quote column => openQuote quote (column + k)
  | openBracket column => openBracket (column + k)
  | strayBracket column => strayBracket (column + k)

namespace Piece

/-- The piece in a text with `k` more characters before it. -/
def shift (k : Nat) (p : Piece) : Piece :=
  ⟨p.text, p.offset + k⟩

/-- What `splitFrom` gives for a text with `k` more characters before it. -/
def shiftSplit (k : Nat) :
    Except ArgumentError (List Char × List Piece) → Except ArgumentError (List Char × List Piece)
  | .error e => .error (e.shift k)
  | .ok (first, later) => .ok (first, later.map (shift k))

/-! ### One step -/

/-- What one character does to the splitter. -/
inductive Step where
  /-- The character stays in its piece. -/
  | stay (lists : List Nat) (quote : Option OpenQuote)
  /-- The character cuts its piece off. -/
  | cut
  /-- The character closes a list that was never opened. -/
  | stray

/-- The step over the character `c` at `column`. -/
def step (lists : List Nat) (quote : Option OpenQuote) (column : Nat) (c : Char) : Step :=
  match quote with
  | some q => .stay lists (OpenQuote.next (some q) column c)
  | none =>
    if c = listOpen then .stay (column :: lists) none
    else if c = listClose then
      match lists with
      | [] => .stray
      | _ :: outer => .stay outer none
    else if c = separator ∧ lists = [] then .cut
    else .stay lists (OpenQuote.next none column c)

/-- What is split after a step. -/
def after (column : Nat) (c : Char) (cs : List Char) :
    Step → Except ArgumentError (List Char × List Piece)
  | .stay lists quote => (splitFrom lists quote (column + 1) cs).map (extend c)
  | .cut => (splitFrom [] none (column + 1) cs).map fun r => ([], ⟨r.1, column⟩ :: r.2)
  | .stray => .error (.strayBracket column)

theorem splitFrom_cons (lists : List Nat) (quote : Option OpenQuote) (column : Nat) (c : Char)
    (cs : List Char) :
    splitFrom lists quote column (c :: cs) = after column c cs (step lists quote column c) := by
  cases quote with
  | some q => rfl
  | none =>
    simp only [splitFrom, step, Option.isSome_none, Bool.false_eq_true, if_false]
    split_ifs
    · rfl
    · cases lists <;> rfl
    · rfl
    · rfl

lemma step_eq_cut_iff {lists : List Nat} {quote : Option OpenQuote} {column : Nat} {c : Char} :
    step lists quote column c = .cut ↔ lists = [] ∧ quote = none ∧ c = separator := by
  constructor
  · intro h
    cases quote with
    | some q => simp [step] at h
    | none =>
      simp only [step] at h
      split_ifs at h with _ _ hs
      · cases lists <;> simp at h
      · exact ⟨hs.2, rfl, hs.1⟩
  · rintro ⟨rfl, rfl, rfl⟩
    rfl

/-- The same step inside further open lists. -/
lemma step_append {lists lists' : List Nat} {quote quote' : Option OpenQuote} {column : Nat}
    {c : Char} (h : step lists quote column c = .stay lists' quote') (outer : List Nat) :
    step (lists ++ outer) quote column c = .stay (lists' ++ outer) quote' := by
  cases quote with
  | some q =>
    simp only [step, Step.stay.injEq] at h ⊢
    exact ⟨by rw [h.1], h.2⟩
  | none =>
    simp only [step] at h ⊢
    split_ifs at h ⊢ with ho hc hs hs'
    · simp only [Step.stay.injEq] at h ⊢
      exact ⟨by rw [← h.1, List.cons_append], h.2⟩
    · cases lists with
      | nil => simp at h
      | cons bracket lists =>
        simp only [Step.stay.injEq, List.cons_append] at h ⊢
        exact ⟨by rw [h.1], h.2⟩
    · simp_all
    · simp only [Step.stay.injEq] at h ⊢
      exact ⟨by rw [h.1], h.2⟩

/-- The step in a text with `k` more characters before it. -/
def Step.shift (k : Nat) : Step → Step
  | stay lists quote => stay (lists.map (· + k)) (quote.map (OpenQuote.shift k))
  | cut => cut
  | stray => stray

lemma step_shift (k : Nat) (lists : List Nat) (quote : Option OpenQuote) (column : Nat) (c : Char) :
    step (lists.map (· + k)) (quote.map (OpenQuote.shift k)) (column + k) c
      = (step lists quote column c).shift k := by
  cases quote with
  | some q =>
    have := OpenQuote.next_shift k column (some q) c
    simp only [Option.map_some] at this
    simp [step, Step.shift, this]
  | none =>
    have hnext := OpenQuote.next_shift k column none c
    simp only [Option.map_none] at hnext
    simp only [step, Option.map_none, List.map_eq_nil_iff]
    split_ifs
    · rfl
    · cases lists <;> rfl
    · rfl
    · rw [hnext, Step.shift]

/-! ### Whole texts -/

/-- A text with `k` more characters before it is split in the same way. -/
theorem splitFrom_shift (k : Nat) (lists : List Nat) (quote : Option OpenQuote) (column : Nat)
    (text : List Char) :
    splitFrom (lists.map (· + k)) (quote.map (OpenQuote.shift k)) (column + k) text
      = shiftSplit k (splitFrom lists quote column text) := by
  induction text generalizing lists quote column with
  | nil =>
    cases quote with
    | some q => rfl
    | none => cases lists <;> rfl
  | cons c cs ih =>
    rw [splitFrom_cons, splitFrom_cons, step_shift]
    cases step lists quote column c with
    | stay lists' quote' =>
      simp only [Step.shift, after]
      rw [Nat.add_right_comm, ih]
      cases splitFrom lists' quote' (column + 1) cs <;> rfl
    | cut =>
      have := ih [] none (column + 1)
      simp only [List.map_nil, Option.map_none] at this
      simp only [Step.shift, after]
      rw [Nat.add_right_comm, this]
      cases splitFrom [] none (column + 1) cs <;> rfl
    | stray => rfl

/-- The text is the only piece it is split into. -/
def Whole (text : List Char) : Prop :=
  split 0 text = .ok [⟨text, 0⟩]

instance (text : List Char) : Decidable (Whole text) :=
  inferInstanceAs (Decidable (_ = _))

/-- The columns do not matter for being whole. -/
lemma whole_iff_splitFrom (column : Nat) {text : List Char} :
    Whole text ↔ splitFrom [] none (column + 1) text = .ok (text, []) := by
  have hshift := splitFrom_shift column [] none 1 text
  rw [List.map_nil, Option.map_none, Nat.add_comm] at hshift
  rw [hshift, Whole, split]
  cases splitFrom [] none 1 text with
  | error e => simp [Except.map, shiftSplit]
  | ok r => simp [Except.map, shiftSplit, Prod.ext_iff]

lemma Whole.splitFrom_eq {text : List Char} (h : Whole text) (column : Nat) :
    splitFrom [] none (column + 1) text = .ok (text, []) :=
  (whole_iff_splitFrom column).1 h

/-! ### Reading on -/

/-- Put a text in front of the first piece. -/
def prepend (u : List Char) (r : List Char × List Piece) : List Char × List Piece :=
  (u ++ r.1, r.2)

lemma map_extend_map_prepend (c : Char) (u : List Char)
    (r : Except ArgumentError (List Char × List Piece)) :
    (r.map (prepend u)).map (extend c) = r.map (prepend (c :: u)) := by
  cases r <;> rfl

lemma map_prepend_nil (r : Except ArgumentError (List Char × List Piece)) :
    r.map (prepend []) = r := by
  cases r <;> rfl

/-- What a step that stays leaves to be split. -/
lemma eq_extend_of_map_extend {c : Char} {first : List Char} {later : List Piece}
    {r : Except ArgumentError (List Char × List Piece)}
    (h : r.map (extend c) = .ok (first, later)) :
    ∃ rest, first = c :: rest ∧ r = .ok (rest, later) := by
  cases r with
  | error e => cases h
  | ok r =>
    simp only [Except.map, extend, Except.ok.injEq, Prod.mk.injEq] at h
    obtain ⟨rfl, rfl⟩ := h
    exact ⟨r.1, rfl, rfl⟩

/-- What a step that cuts leaves to be split. -/
lemma eq_cons_of_map_cut {column : Nat} {first : List Char} {later : List Piece}
    {r : Except ArgumentError (List Char × List Piece)}
    (h : (r.map fun r => (([] : List Char), (⟨r.1, column⟩ : Piece) :: r.2)) = .ok (first, later)) :
    ∃ next rest, first = [] ∧ later = ⟨next, column⟩ :: rest ∧ r = .ok (next, rest) := by
  cases r with
  | error e => cases h
  | ok r =>
    simp only [Except.map, Except.ok.injEq, Prod.mk.injEq] at h
    obtain ⟨rfl, rfl⟩ := h
    exact ⟨r.1, r.2, rfl, rfl, rfl⟩

lemma state_of_splitFrom_nil {lists : List Nat} {quote : Option OpenQuote} {column : Nat}
    {r : List Char × List Piece} (h : splitFrom lists quote column [] = .ok r) :
    lists = [] ∧ quote = none ∧ r = ([], []) := by
  cases quote with
  | some q => simp [splitFrom] at h
  | none =>
    cases lists with
    | nil => exact ⟨rfl, rfl, by simpa [splitFrom] using h.symm⟩
    | cons bracket outer => simp [splitFrom] at h

/-- Splitting goes on after a text without a cut as it began. -/
lemma splitFrom_append {lists : List Nat} {quote : Option OpenQuote} {column : Nat}
    {u first : List Char} (h : splitFrom lists quote column u = .ok (first, []))
    (rest : List Char) :
    splitFrom lists quote column (u ++ rest)
      = (splitFrom [] none (column + u.length) rest).map (prepend u) := by
  induction u generalizing lists quote column first with
  | nil =>
    obtain ⟨rfl, rfl, -⟩ := state_of_splitFrom_nil h
    rw [map_prepend_nil]
    rfl
  | cons c cs ih =>
    rw [splitFrom_cons] at h
    rw [List.cons_append, splitFrom_cons]
    cases hstep : step lists quote column c with
    | stay lists' quote' =>
      rw [hstep] at h
      obtain ⟨first', -, h'⟩ := eq_extend_of_map_extend h
      simp only [after]
      rw [ih h', map_extend_map_prepend, List.length_cons, Nat.add_comm cs.length, Nat.add_assoc]
    | cut =>
      rw [hstep] at h
      obtain ⟨next, later, -, hlater, -⟩ := eq_cons_of_map_cut h
      simp at hlater
    | stray =>
      rw [hstep] at h
      cases h

/-- A text that can be split leaves the lists open that were open around it, and inside them it
is not cut. -/
lemma splitFrom_append_of_open {lists : List Nat} {quote : Option OpenQuote} {column : Nat}
    {u : List Char} {r : List Char × List Piece} (h : splitFrom lists quote column u = .ok r)
    {outer : List Nat} (houter : outer ≠ []) (rest : List Char) :
    splitFrom (lists ++ outer) quote column (u ++ rest)
      = (splitFrom outer none (column + u.length) rest).map (prepend u) := by
  induction u generalizing lists quote column r with
  | nil =>
    obtain ⟨rfl, rfl, -⟩ := state_of_splitFrom_nil h
    rw [map_prepend_nil]
    rfl
  | cons c cs ih =>
    rw [splitFrom_cons] at h
    rw [List.cons_append, splitFrom_cons]
    cases hstep : step lists quote column c with
    | stay lists' quote' =>
      rw [hstep] at h
      obtain ⟨first', -, h'⟩ := eq_extend_of_map_extend h
      rw [step_append hstep outer, after, ih h', map_extend_map_prepend, List.length_cons,
        Nat.add_comm cs.length, Nat.add_assoc]
    | cut =>
      rw [hstep] at h
      obtain ⟨next, later, -, -, h'⟩ := eq_cons_of_map_cut h
      obtain ⟨rfl, rfl, rfl⟩ := step_eq_cut_iff.1 hstep
      -- inside a list a separator is a character like any other
      have hstay : step ([] ++ outer) none column separator = .stay ([] ++ outer) none := by
        cases outer with
        | nil => exact absurd rfl houter
        | cons bracket outer => rfl
      rw [hstay, after, ih h', map_extend_map_prepend, List.length_cons, Nat.add_comm cs.length,
        Nat.add_assoc]
    | stray =>
      rw [hstep] at h
      cases h

/-- The first piece of a text is not cut, and it ends with the text or at a separator. -/
lemma first_of_splitFrom {lists : List Nat} {quote : Option OpenQuote} {column : Nat}
    {text first : List Char} {later : List Piece}
    (h : splitFrom lists quote column text = .ok (first, later)) :
    splitFrom lists quote column first = .ok (first, []) ∧
      (later = [] ∧ text = first ∨
        ∃ rest next later', later = ⟨next, column + first.length⟩ :: later' ∧
          text = first ++ separator :: rest ∧
          splitFrom [] none (column + first.length + 1) rest = .ok (next, later')) := by
  induction text generalizing lists quote column first with
  | nil =>
    obtain ⟨rfl, rfl, hr⟩ := state_of_splitFrom_nil h
    cases hr
    exact ⟨rfl, .inl ⟨rfl, rfl⟩⟩
  | cons c cs ih =>
    rw [splitFrom_cons] at h
    cases hstep : step lists quote column c with
    | stay lists' quote' =>
      rw [hstep] at h
      obtain ⟨first', rfl, h'⟩ := eq_extend_of_map_extend h
      obtain ⟨hfirst, hlater⟩ := ih h'
      refine ⟨by rw [splitFrom_cons, hstep, after, hfirst]; rfl, ?_⟩
      rcases hlater with ⟨rfl, rfl⟩ | ⟨rest, next, later', rfl, rfl, hrest⟩
      · exact .inl ⟨rfl, rfl⟩
      · refine .inr ⟨rest, next, later', ?_, rfl, ?_⟩
        · rw [List.length_cons, Nat.add_comm first'.length, Nat.add_assoc]
        · rw [List.length_cons, Nat.add_comm first'.length, ← Nat.add_assoc]
          exact hrest
    | cut =>
      rw [hstep] at h
      obtain ⟨next, later', rfl, rfl, h'⟩ := eq_cons_of_map_cut h
      obtain ⟨rfl, rfl, rfl⟩ := step_eq_cut_iff.1 hstep
      exact ⟨rfl, .inr ⟨cs, next, later', rfl, rfl, h'⟩⟩
    | stray =>
      rw [hstep] at h
      cases h

/-- A whole text before a separator is the first piece. -/
lemma Whole.split_append {first : List Char} (h : Whole first) (offset : Nat) (rest : List Char) :
    split offset (first ++ separator :: rest)
      = (split (offset + first.length + 1) rest).map (⟨first, offset⟩ :: ·) := by
  rw [split, splitFrom_append (h.splitFrom_eq offset), splitFrom_cons,
    step_eq_cut_iff.2 ⟨rfl, rfl, rfl⟩, after, Nat.add_right_comm offset, split]
  cases splitFrom [] none (offset + first.length + 1 + 1) rest with
  | error e => rfl
  | ok r => simp [Except.map, prepend]

/-- Splitting a text is splitting off a whole piece as often as it takes. -/
theorem split_eq_ok_iff {offset : Nat} {text : List Char} {pieces : List Piece} :
    split offset text = .ok pieces ↔
      ∃ first later, pieces = ⟨first, offset⟩ :: later ∧ Whole first ∧
        (later = [] ∧ text = first ∨ ∃ rest, text = first ++ separator :: rest ∧
          split (offset + first.length + 1) rest = .ok later) := by
  constructor
  · intro h
    rw [split] at h
    cases hs : splitFrom [] none (offset + 1) text with
    | error e =>
      rw [hs] at h
      cases h
    | ok r =>
      obtain ⟨first, later⟩ := r
      simp only [hs, Except.map, Except.ok.injEq] at h
      obtain ⟨hfirst, hlater⟩ := first_of_splitFrom hs
      refine ⟨first, later, h.symm, (whole_iff_splitFrom offset).2 hfirst, ?_⟩
      rcases hlater with hlast | ⟨rest, next, later', rfl, rfl, hrest⟩
      · exact .inl hlast
      · refine .inr ⟨rest, rfl, ?_⟩
        rw [Nat.add_right_comm offset, split, hrest]
        rfl
  · rintro ⟨first, later, rfl, hfirst, ⟨rfl, rfl⟩ | ⟨rest, rfl, hrest⟩⟩
    · rw [split, hfirst.splitFrom_eq]
      rfl
    · rw [hfirst.split_append, hrest]
      rfl

/-! ### Texts that are whole -/

lemma Whole.nil : Whole [] := rfl

lemma Whole.append {u v : List Char} (hu : Whole u) (hv : Whole v) : Whole (u ++ v) := by
  rw [whole_iff_splitFrom 0, splitFrom_append (hu.splitFrom_eq 0), Nat.add_right_comm,
    hv.splitFrom_eq]
  rfl

/-- A text without quotes, brackets and separators. -/
lemma Whole.of_plain {u : List Char} (h : ∀ c ∈ u, isQuote c = false ∧ c ≠ listOpen ∧
    c ≠ listClose ∧ c ≠ separator) : Whole u := by
  induction u with
  | nil => exact .nil
  | cons c cs ih =>
    obtain ⟨⟨hq, ho, hc, hs⟩, hcs⟩ := List.forall_mem_cons.1 h
    have hone : Whole [c] := by
      simp [Whole, split, splitFrom, ho, hc, hs, OpenQuote.next_none_of_not_isQuote _ hq,
        Except.map, extend]
    exact hone.append (ih hcs)

/-- A quoted run is whole. -/
lemma Whole.quoted {q : Char} {run : List Char} (hq : isQuote q = true) (hr : q ∉ run) :
    Whole (q :: run ++ [q]) := by
  have hhidden : ∀ (run : List Char) (column : Nat), q ∉ run →
      splitFrom [] (some ⟨q, 1⟩) column (run ++ [q]) = .ok (run ++ [q], []) := by
    intro run
    induction run with
    | nil =>
      intro column _
      simp [splitFrom_cons, step, after, OpenQuote.next, splitFrom, Except.map, extend]
    | cons c run ih =>
      intro column hr
      obtain ⟨hc, hr⟩ := not_or.1 (mt List.mem_cons.2 hr)
      have hnext : OpenQuote.next (some ⟨q, 1⟩) column c = some ⟨q, 1⟩ := by
        simp [OpenQuote.next, Ne.symm hc]
      rw [List.cons_append, splitFrom_cons, step, hnext, after, ih _ hr]
      rfl
  have hstep : step [] none 1 q = .stay [] (some ⟨q, 1⟩) := by
    have hne : q ≠ listOpen ∧ q ≠ listClose ∧ q ≠ separator :=
      ⟨ne_of_isQuote hq rfl, ne_of_isQuote hq rfl, ne_of_isQuote hq rfl⟩
    simp [step, hne, OpenQuote.next, hq]
  rw [whole_iff_splitFrom 0, List.cons_append, splitFrom_cons, hstep, after, hhidden run _ hr]
  rfl

/-- A list is whole if its content can be split at all. -/
theorem whole_list {offset : Nat} {content : List Char} {pieces : List Piece}
    (h : split offset content = .ok pieces) : Whole (listOpen :: content ++ [listClose]) := by
  rw [split] at h
  cases hs : splitFrom [] none (offset + 1) content with
  | error e =>
    rw [hs] at h
    cases h
  | ok r =>
    have hopen : step [] none (offset + 1) listOpen = .stay [offset + 1] none := rfl
    have hclose : ∀ column,
        splitFrom [offset + 1] none column [listClose] = .ok ([listClose], []) := by
      intro column
      rfl
    have hshift := splitFrom_shift 1 [] none (offset + 1) content
    rw [hs, List.map_nil, Option.map_none, shiftSplit] at hshift
    have hinner := splitFrom_append_of_open hshift (List.cons_ne_nil (offset + 1) []) [listClose]
    rw [List.nil_append, hclose] at hinner
    rw [whole_iff_splitFrom offset, List.cons_append, splitFrom_cons, hopen, after, hinner]
    rfl

end Piece

end FormatExpr
