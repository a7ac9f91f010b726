import FormatExpr.Proofs.Nesting
import FormatExpr.Proofs.Splitting

/-!
# Faults of one level

`Fault` says by grammar what can be wrong with an argument text before its pieces are looked at,
and in which column: a bracket that closes nothing, a quoted run that is never closed, or a bracket
that is never closed. Every text is nested or has a fault (`nested_or_fault`), and the splitter
refuses a text with the very fault it has (`split_eq_error_iff`).

`Piece.scan` is the splitter without its pieces. A nested text leaves it as it was, whatever lists
are open around the text (`scan_nested_append`).
-/

namespace FormatExpr

/-- What is wrong with a text and the column of the character that is to blame. -/
inductive Fault : List Char → ArgumentError → Prop where
  /-- All brackets before this one are closed, so that it closes none. -/
  | stray {before after : List Char} (h : Nested listOpen listClose before) :
      Fault (before ++ listClose :: after) (.strayBracket (before.length + 1))
  /-- No bracket before the quote is stray, and the quoted run goes on to the end. -/
  | quote {before run : List Char} {q : Char} (h : HalfNested listOpen listClose before)
      (hq : isQuote q = true) (hr : q ∉ run) :
      Fault (before ++ q :: run) (.openQuote q (before.length + 1))
  /-- No bracket before this one is stray, and all brackets after it match one another. -/
  | bracket {before inner : List Char} (h : HalfNested listOpen listClose before)
      (hi : Nested listOpen listClose inner) :
      Fault (before ++ listOpen :: inner) (.openBracket (before.length + 1))

/-! ### Every text has its fault -/

variable {u text : List Char} {e : ArgumentError}

/-- Every text is nested or has a fault. -/
theorem nested_or_fault (text : List Char) :
    Nested listOpen listClose text ∨ ∃ e, Fault text e := by
  cases sequel listOpen listClose text with
  | closes h => exact .inr ⟨_, .stray h⟩
  | leavesOpen h =>
    rcases h.nested_or_opened with h | ⟨before, inner, rfl, h, hi⟩
    · exact .inl h
    · exact .inr ⟨_, .bracket h hi⟩
  | leavesQuote h hq hr => exact .inr ⟨_, .quote h hq hr⟩

namespace Piece

/-! ### Scanning -/

/-- Whether a text can be split where `lists` and `quote` are open before it, and why not. -/
def scan (lists : List Nat) (quote : Option OpenQuote) (column : Nat) (text : List Char) :
    Except ArgumentError Unit :=
  (splitFrom lists quote column text).map fun _ => ()

/-- What is scanned after a step. -/
def scanAfter (column : Nat) (cs : List Char) : Step → Except ArgumentError Unit
  | .stay lists quote => scan lists quote (column + 1) cs
  | .cut => scan [] none (column + 1) cs
  | .stray => .error (.strayBracket column)

lemma scan_cons (lists : List Nat) (quote : Option OpenQuote) (column : Nat) (c : Char)
    (cs : List Char) :
    scan lists quote column (c :: cs) = scanAfter column cs (step lists quote column c) := by
  rw [scan, splitFrom_cons]
  cases step lists quote column c with
  | stay lists' quote' =>
    rw [after, scanAfter, scan]
    cases splitFrom lists' quote' (column + 1) cs <;> rfl
  | cut =>
    rw [after, scanAfter, scan]
    cases splitFrom [] none (column + 1) cs <;> rfl
  | stray => rfl

lemma scan_open (lists : List Nat) (column : Nat) (cs : List Char) :
    scan lists none column (listOpen :: cs) = scan (column :: lists) none (column + 1) cs :=
  scan_cons lists none column listOpen cs

lemma scan_close (bracket : Nat) (lists : List Nat) (column : Nat) (cs : List Char) :
    scan (bracket :: lists) none column (listClose :: cs) = scan lists none (column + 1) cs :=
  scan_cons (bracket :: lists) none column listClose cs

lemma scan_quote {q : Char} (hq : isQuote q = true) (lists : List Nat) (column : Nat)
    (cs : List Char) :
    scan lists none column (q :: cs) = scan lists (some ⟨q, column⟩) (column + 1) cs := by
  have hne : q ≠ listOpen ∧ q ≠ listClose ∧ q ≠ separator :=
    ⟨ne_of_isQuote hq rfl, ne_of_isQuote hq rfl, ne_of_isQuote hq rfl⟩
  have hstep : step lists none column q = .stay lists (some ⟨q, column⟩) := by
    simp [step, hne, OpenQuote.next, hq]
  rw [scan_cons, hstep, scanAfter]

/-- Outside of quotes a character that is no bracket and no quote changes nothing. -/
lemma scan_plain {c : Char} (hq : isQuote c = false) (ho : c ≠ listOpen) (hc : c ≠ listClose)
    (lists : List Nat) (column : Nat) (cs : List Char) :
    scan lists none column (c :: cs) = scan lists none (column + 1) cs := by
  rw [scan_cons]
  by_cases hcut : lists = [] ∧ c = separator
  · obtain ⟨rfl, rfl⟩ := hcut
    rfl
  · have hstep : step lists none column c = .stay lists none := by
      have hcut' : ¬(c = separator ∧ lists = []) := fun h => hcut ⟨h.2, h.1⟩
      simp only [step, if_neg ho, if_neg hc, if_neg hcut',
        OpenQuote.next_none_of_not_isQuote column hq]
    rw [hstep, scanAfter]

/-- A quoted run that is not closed hides the rest of the text. -/
lemma scan_run {run : List Char} {q : OpenQuote} (hr : q.mark ∉ run) (lists : List Nat)
    (column : Nat) (rest : List Char) :
    scan lists (some q) column (run ++ rest) = scan lists (some q) (column + run.length) rest := by
  induction run generalizing column with
  | nil => rfl
  | cons c run ih =>
    obtain ⟨hc, hr⟩ := not_or.1 (mt List.mem_cons.2 hr)
    have hnext : OpenQuote.next (some q) column c = some q := by
      simp [OpenQuote.next, Ne.symm hc]
    rw [List.cons_append, scan_cons, step, hnext, scanAfter, ih hr, List.length_cons,
      Nat.add_comm run.length, Nat.add_assoc]

lemma scan_quoted_append {q : Char} {run : List Char} (hq : isQuote q = true) (hr : q ∉ run)
    (lists : List Nat) (column : Nat) (rest : List Char) :
    scan lists none column (q :: (run ++ q :: rest))
      = scan lists none (column + (run.length + 2)) rest := by
  rw [scan_quote hq, @scan_run run ⟨q, column⟩ hr, scan_cons, step,
    OpenQuote.next_mark, scanAfter]
  congr 1
  omega

/-- A nested text changes nothing, whatever lists are open around it. -/
theorem scan_nested_append (hu : Nested listOpen listClose u) (lists : List Nat) (column : Nat)
    (rest : List Char) :
    scan lists none column (u ++ rest) = scan lists none (column + u.length) rest := by
  induction hu generalizing lists column rest with
  | nil => rfl
  | plain hq ho hc _ ih =>
    rw [List.cons_append, scan_plain hq ho hc, ih]
    simp [Nat.add_comm, Nat.add_left_comm]
  | quoted hq hr _ ih =>
    rw [List.append_assoc, List.cons_append, List.cons_append, scan_quoted_append hq hr, ih]
    simp [Nat.add_comm, Nat.add_left_comm]
  | enclosed _ _ ihi ih =>
    rw [List.append_assoc, List.cons_append, List.cons_append, scan_open, ihi, scan_close, ih]
    simp [Nat.add_comm, Nat.add_left_comm]

/-- A half nested text may only open lists. -/
lemma scan_halfNested_append (hu : HalfNested listOpen listClose u) (lists : List Nat)
    (column : Nat) :
    ∃ opened, ∀ rest, scan lists none column (u ++ rest)
      = scan (opened ++ lists) none (column + u.length) rest := by
  induction hu using HalfNested.ind generalizing lists column with
  | nil => exact ⟨[], fun _ => rfl⟩
  | @nested segment cs hs _ ih =>
    obtain ⟨opened, ih⟩ := ih lists (column + segment.length)
    refine ⟨opened, fun rest => ?_⟩
    rw [List.append_assoc, scan_nested_append hs, ih, List.length_append, Nat.add_assoc]
  | opened _ ih =>
    obtain ⟨opened, ih⟩ := ih (column :: lists) (column + 1)
    refine ⟨opened ++ [column], fun rest => ?_⟩
    rw [List.cons_append, scan_open, ih]
    simp [Nat.add_comm, Nat.add_left_comm]

/-! ### Splitting fails with the fault -/

lemma scan_of_nested (h : Nested listOpen listClose text) (column : Nat) :
    scan [] none column text = .ok () := by
  have := scan_nested_append h [] column []
  rw [List.append_nil] at this
  rw [this]
  rfl

lemma scan_of_fault (h : Fault text e) (offset : Nat) :
    scan [] none (offset + 1) text = .error (e.shift offset) := by
  cases h with
  | @stray before after h =>
    rw [scan_nested_append h]
    change Except.error (ArgumentError.strayBracket _) = _
    rw [ArgumentError.shift]
    congr 2
    omega
  | @quote before run q h hq hr =>
    obtain ⟨opened, hscan⟩ := scan_halfNested_append h [] (offset + 1)
    rw [hscan, scan_quote hq, ← List.append_nil run, @scan_run run ⟨q, _⟩ hr]
    change Except.error (ArgumentError.openQuote q (offset + 1 + before.length)) = _
    rw [ArgumentError.shift]
    congr 2
    omega
  | @bracket before inner h hi =>
    obtain ⟨opened, hscan⟩ := scan_halfNested_append h [] (offset + 1)
    rw [hscan, scan_open, ← List.append_nil inner, scan_nested_append hi]
    change Except.error (ArgumentError.openBracket _) = _
    rw [ArgumentError.shift]
    congr 2
    omega

lemma scan_eq_error_iff_split {offset : Nat} :
    scan [] none (offset + 1) text = .error e ↔ split offset text = .error e := by
  rw [scan, split]
  cases splitFrom [] none (offset + 1) text <;> simp [Except.map]

/-- A text can be split exactly if it is nested. -/
theorem exists_split_iff_nested (offset : Nat) :
    (∃ pieces, split offset text = .ok pieces) ↔ Nested listOpen listClose text := by
  constructor
  · rintro ⟨pieces, h⟩
    rcases nested_or_fault text with hn | ⟨e, he⟩
    · exact hn
    · rw [scan_eq_error_iff_split.1 (scan_of_fault he offset)] at h
      cases h
  · intro h
    cases hsplit : split offset text with
    | ok pieces => exact ⟨pieces, rfl⟩
    | error e =>
      rw [← scan_eq_error_iff_split, scan_of_nested h] at hsplit
      cases hsplit

/-- A text with a fault cannot be split, and the error is the fault. -/
theorem split_of_fault (h : Fault text e) (offset : Nat) :
    split offset text = .error (e.shift offset) :=
  scan_eq_error_iff_split.1 (scan_of_fault h offset)

end Piece

@[simp] lemma ArgumentError.shift_zero (e : ArgumentError) : e.shift 0 = e := by
  cases e <;> rfl

/-- The splitter refuses a text with the fault of the text and with nothing else. -/
theorem Piece.split_eq_error_iff : Piece.split 0 text = .error e ↔ Fault text e := by
  constructor
  · intro h
    rcases nested_or_fault text with hn | ⟨e', he⟩
    · obtain ⟨pieces, hsplit⟩ := (exists_split_iff_nested 0).2 hn
      rw [hsplit] at h
      cases h
    · rw [split_of_fault he, ArgumentError.shift_zero, Except.error.injEq] at h
      exact h ▸ he
  · intro h
    rw [split_of_fault h, ArgumentError.shift_zero]

end FormatExpr
