import Mathlib
import FormatExpr.Expression

/-!
# Nested brackets

`Nested` is the grammar of the texts in which every quoted run is closed and the brackets of one
pair match. In a `HalfNested` text brackets may be left open at the end, and closing these makes it
nested. Every text closes a bracket that stands open before it, leaves it open, or ends within a
quoted run (`sequel`).

`Unclosed` says what may follow where some brackets, and perhaps a quoted run, are still open. It
is the invariant of every reader that counts open brackets and remembers an open quote: each step of
such a reader keeps it. Which quoted run is open does not depend on the brackets at all
(`markAfter`).

With the parentheses of a call as the pair, `Nested` is the grammar of argument texts, and the
reader of a call body passes over such a text as a whole: `readBody_nested_append`.
-/

namespace FormatExpr

/-! ### Quotes -/

/-- The quote character of the run that is open after a character, where `mark` is open before
it. -/
def nextMark (mark : Option Char) (c : Char) : Option Char :=
  match mark with
  | some q => if c = q then none else some q
  | none => if isQuote c then some c else none

/-- The quote character of the run that is open after a text. -/
def markAfter (mark : Option Char) (text : List Char) : Option Char :=
  text.foldl nextMark mark

lemma markAfter_append (mark : Option Char) (u v : List Char) :
    markAfter mark (u ++ v) = markAfter (markAfter mark u) v :=
  List.foldl_append

lemma markAfter_plain {c : Char} (hq : isQuote c = false) (cs : List Char) :
    markAfter none (c :: cs) = markAfter none cs := by
  rw [markAfter, List.foldl_cons, nextMark, hq]
  rfl

lemma markAfter_quote {q : Char} (hq : isQuote q = true) (cs : List Char) :
    markAfter none (q :: cs) = markAfter (some q) cs := by
  rw [markAfter, List.foldl_cons, nextMark, hq]
  rfl

/-- Within a quoted run no character but its own quote character counts. -/
lemma markAfter_run {q : Char} {run : List Char} (hr : q ∉ run) :
    markAfter (some q) run = some q := by
  induction run with
  | nil => rfl
  | cons c run ih =>
    obtain ⟨hc, hr⟩ := not_or.1 (mt List.mem_cons.2 hr)
    rw [markAfter, List.foldl_cons, nextMark, if_neg (Ne.symm hc)]
    exact ih hr

lemma markAfter_quoted {q : Char} {run : List Char} (hq : isQuote q = true) (hr : q ∉ run)
    (cs : List Char) : markAfter none (q :: run ++ q :: cs) = markAfter none cs := by
  rw [List.cons_append, markAfter_quote hq, markAfter_append, markAfter_run hr, markAfter,
    List.foldl_cons, nextMark, if_pos rfl]
  rfl

/-! ### Nested texts -/

/-- The texts in which quoted runs are closed and the two brackets match. A quoted run hides the
brackets in it. -/
inductive Nested (opening closing : Char) : List Char → Prop where
  | nil : Nested opening closing []
  | plain {c : Char} {cs : List Char} (hq : isQuote c = false) (ho : c ≠ opening) (hc : c ≠ closing)
      (h : Nested opening closing cs) : Nested opening closing (c :: cs)
  | quoted {q : Char} {run cs : List Char} (hq : isQuote q = true) (hr : q ∉ run)
      (h : Nested opening closing cs) : Nested opening closing (q :: run ++ q :: cs)
  | enclosed {inner cs : List Char} (hi : Nested opening closing inner)
      (h : Nested opening closing cs) : Nested opening closing (opening :: inner ++ closing :: cs)

namespace Nested

variable {opening closing : Char} {u v : List Char}

lemma append (hu : Nested opening closing u) (hv : Nested opening closing v) :
    Nested opening closing (u ++ v) := by
  induction hu with
  | nil => exact hv
  | plain hq ho hc _ ih => exact plain hq ho hc ih
  | quoted hq hr _ ih =>
    rw [List.append_assoc, List.cons_append]
    exact quoted hq hr ih
  | enclosed hi _ _ ih =>
    rw [List.append_assoc, List.cons_append]
    exact enclosed hi ih

lemma singleton {c : Char} (h : isQuote c = false ∧ c ≠ opening ∧ c ≠ closing) :
    Nested opening closing [c] :=
  plain h.1 h.2.1 h.2.2 nil

/-- A text without quotes and brackets. -/
lemma of_plain (h : ∀ c ∈ u, isQuote c = false ∧ c ≠ opening ∧ c ≠ closing) :
    Nested opening closing u := by
  induction u with
  | nil => exact nil
  | cons c cs ih =>
    obtain ⟨⟨hq, ho, hc⟩, hcs⟩ := List.forall_mem_cons.1 h
    exact plain hq ho hc (ih hcs)

/-- No quoted run is open after a nested text. -/
lemma markAfter_eq_none (hopening : isQuote opening = false) (hclosing : isQuote closing = false)
    (hu : Nested opening closing u) : markAfter none u = none := by
  induction hu with
  | nil => rfl
  | plain hq _ _ _ ih => rw [markAfter_plain hq, ih]
  | quoted hq hr _ ih => rw [markAfter_quoted hq hr, ih]
  | enclosed _ _ ihi ih =>
    rw [List.cons_append, markAfter_plain hopening, markAfter_append, ihi,
      markAfter_plain hclosing, ih]

end Nested

/-! ### Half nested texts -/

/-- The texts in which quoted runs are closed and every closing bracket has an opening one. Other
than in a nested text, opening brackets may be left over. -/
inductive HalfNested (opening closing : Char) : List Char → Prop where
  | nil : HalfNested opening closing []
  | plain {c : Char} {cs : List Char} (hq : isQuote c = false) (ho : c ≠ opening) (hc : c ≠ closing)
      (h : HalfNested opening closing cs) : HalfNested opening closing (c :: cs)
  | quoted {q : Char} {run cs : List Char} (hq : isQuote q = true) (hr : q ∉ run)
      (h : HalfNested opening closing cs) : HalfNested opening closing (q :: run ++ q :: cs)
  | enclosed {inner cs : List Char} (hi : Nested opening closing inner)
      (h : HalfNested opening closing cs) :
      HalfNested opening closing (opening :: inner ++ closing :: cs)
  | opened {cs : List Char} (h : HalfNested opening closing cs) :
      HalfNested opening closing (opening :: cs)

namespace HalfNested

variable {opening closing : Char} {u v : List Char}

lemma append (hu : HalfNested opening closing u) (hv : HalfNested opening closing v) :
    HalfNested opening closing (u ++ v) := by
  induction hu with
  | nil => exact hv
  | plain hq ho hc _ ih => exact plain hq ho hc ih
  | quoted hq hr _ ih =>
    rw [List.append_assoc, List.cons_append]
    exact quoted hq hr ih
  | enclosed hi _ ih =>
    rw [List.append_assoc, List.cons_append]
    exact enclosed hi ih
  | opened _ ih => exact opened ih

lemma of_nested (h : Nested opening closing u) : HalfNested opening closing u := by
  induction h with
  | nil => exact nil
  | plain hq ho hc _ ih => exact plain hq ho hc ih
  | quoted hq hr _ ih => exact quoted hq hr ih
  | enclosed hi _ _ ih => exact enclosed hi ih

/-- To show something of every half nested text it is enough that it stays true when a nested text
or an opening bracket is put in front. -/
@[elab_as_elim]
theorem ind {motive : ∀ u, HalfNested opening closing u → Prop} (nil : motive [] .nil)
    (nested : ∀ {u v} (hu : Nested opening closing u) (hv : HalfNested opening closing v),
      motive v hv → motive (u ++ v) ((of_nested hu).append hv))
    (opened : ∀ {v} (hv : HalfNested opening closing v),
      motive v hv → motive (opening :: v) (.opened hv))
    {u : List Char} (hu : HalfNested opening closing u) : motive u hu := by
  induction hu with
  | nil => exact nil
  | plain hq ho hc h ih => exact nested (.singleton ⟨hq, ho, hc⟩) h ih
  | @quoted q run cs hq hr h ih =>
    have hsegment : Nested opening closing (q :: run ++ [q]) := .quoted hq hr .nil
    simpa using nested hsegment h ih
  | @enclosed inner cs hi h ih =>
    have hsegment : Nested opening closing (opening :: inner ++ [closing]) := .enclosed hi .nil
    simpa using nested hsegment h ih
  | opened h ih => exact opened h ih

/-- No quoted run is open after a half nested text. -/
lemma markAfter_eq_none (hopening : isQuote opening = false) (hclosing : isQuote closing = false)
    (hu : HalfNested opening closing u) : markAfter none u = none := by
  induction hu using HalfNested.ind with
  | nil => rfl
  | nested hs _ ih => rw [markAfter_append, hs.markAfter_eq_none hopening hclosing, ih]
  | opened _ ih => rw [markAfter_plain hopening, ih]

/-- If a half nested text is not nested then it has an innermost bracket that is left open. -/
lemma nested_or_opened (hu : HalfNested opening closing u) :
    Nested opening closing u ∨ ∃ before inner, u = before ++ opening :: inner ∧
      HalfNested opening closing before ∧ Nested opening closing inner := by
  induction hu using HalfNested.ind with
  | nil => exact .inl .nil
  | @nested segment cs hs _ ih =>
    rcases ih with h | ⟨before, inner, rfl, h, hi⟩
    · exact .inl (hs.append h)
    · exact .inr ⟨segment ++ before, inner, by simp, (of_nested hs).append h, hi⟩
  | opened _ ih =>
    rcases ih with h | ⟨before, inner, rfl, h, hi⟩
    · exact .inr ⟨[], _, rfl, .nil, h⟩
    · exact .inr ⟨opening :: before, inner, rfl, .opened h, hi⟩

/-- The brackets that a half nested text leaves open can be closed after it. -/
lemma exists_nested_append (hu : HalfNested opening closing u) :
    ∃ more, Nested opening closing (u ++ more) := by
  induction hu using HalfNested.ind with
  | nil => exact ⟨[], .nil⟩
  | nested hs _ ih =>
    obtain ⟨more, ih⟩ := ih
    refine ⟨more, ?_⟩
    rw [List.append_assoc]
    exact hs.append ih
  | opened _ ih =>
    obtain ⟨more, ih⟩ := ih
    refine ⟨more ++ [closing], ?_⟩
    rw [List.cons_append, ← List.append_assoc]
    exact .enclosed ih .nil

end HalfNested

/-! ### What follows an open bracket -/

/-- What a text does to a bracket that stands open before it. -/
inductive Sequel (opening closing : Char) : List Char → Prop where
  | closes {before after : List Char} (h : Nested opening closing before) :
      Sequel opening closing (before ++ closing :: after)
  | leavesOpen {text : List Char} (h : HalfNested opening closing text) :
      Sequel opening closing text
  /-- The text ends within a quoted run. -/
  | leavesQuote {before run : List Char} {q : Char} (h : HalfNested opening closing before)
      (hq : isQuote q = true) (hr : q ∉ run) : Sequel opening closing (before ++ q :: run)

/-- A nested text in front changes nothing. -/
lemma Sequel.nested_append {opening closing : Char} {u text : List Char}
    (hu : Nested opening closing u) (h : Sequel opening closing text) :
    Sequel opening closing (u ++ text) := by
  cases h with
  | closes h =>
    rw [← List.append_assoc]
    exact closes (hu.append h)
  | leavesOpen h => exact leavesOpen ((HalfNested.of_nested hu).append h)
  | leavesQuote h hq hr =>
    rw [← List.append_assoc]
    exact leavesQuote ((HalfNested.of_nested hu).append h) hq hr

/-- Every text closes an open bracket, leaves it open, or ends within a quoted run. -/
theorem sequel (opening closing : Char) (text : List Char) : Sequel opening closing text := by
  induction hn : text.length using Nat.strong_induction_on generalizing text with
  | _ n ih =>
    subst hn
    cases text with
    | nil => exact .leavesOpen .nil
    | cons c cs =>
      have hcs := ih cs.length (by simp) cs rfl
      by_cases hq : isQuote c = true
      · by_cases hmem : c ∈ cs
        · -- the quoted run ends where its quote character comes next
          obtain ⟨run, rest, rfl, hrun⟩ := List.eq_append_cons_of_mem hmem
          have hrest := ih rest.length (by simp; omega) rest rfl
          have hsegment : Nested opening closing (c :: run ++ [c]) := .quoted hq hrun .nil
          simpa using hrest.nested_append hsegment
        · exact .leavesQuote .nil hq hmem
      · rw [Bool.not_eq_true] at hq
        by_cases hc : c = closing
        · rw [hc]
          exact .closes .nil
        · by_cases ho : c = opening
          · rw [ho]
            cases hcs with
            | @closes before after h =>
              -- what closes a bracket closes the one in front
              have hafter := ih after.length (by simp; omega) after rfl
              have hsegment : Nested opening closing (opening :: before ++ [closing]) :=
                .enclosed h .nil
              simpa using hafter.nested_append hsegment
            | leavesOpen h => exact .leavesOpen (.opened h)
            | leavesQuote h hq hr => exact .leavesQuote (.opened h) hq hr
          · exact hcs.nested_append (.singleton ⟨hq, ho, hc⟩)

/-! ### Open brackets -/

/-- The texts called `Top` keep being so when a quoted run or a bracketed text is put in front. -/
structure NestedTop (opening closing : Char) (Top : List Char → Prop) : Prop where
  quoted : ∀ {q : Char} {run cs : List Char}, isQuote q = true → q ∉ run → Top cs →
    Top (q :: run ++ q :: cs)
  enclosed : ∀ {inner cs : List Char}, Nested opening closing inner → Top cs →
    Top (opening :: inner ++ closing :: cs)

lemma Nested.nestedTop (opening closing : Char) :
    NestedTop opening closing (Nested opening closing) :=
  ⟨.quoted, .enclosed⟩

/-- What may follow after `depth` brackets and the quote character have been left open, where
`Top` says what may follow outside of all brackets. -/
inductive Unclosed (opening closing : Char) (Top : List Char → Prop) :
    Nat → Option Char → List Char → Prop where
  | last {cs : List Char} (h : Top cs) : Unclosed opening closing Top 0 none cs
  | close {depth : Nat} {inner outer : List Char} (hi : Nested opening closing inner)
      (h : Unclosed opening closing Top depth none outer) :
      Unclosed opening closing Top (depth + 1) none (inner ++ closing :: outer)
  | unquote {depth : Nat} {q : Char} {run rest : List Char} (hr : q ∉ run)
      (h : Unclosed opening closing Top depth none rest) :
      Unclosed opening closing Top depth (some q) (run ++ q :: rest)

namespace Unclosed

variable {opening closing : Char} {Top : List Char → Prop} {depth : Nat} {rest : List Char}

lemma cons_plain {c : Char} (hq : isQuote c = false) (ho : c ≠ opening) (hc : c ≠ closing)
    (htop : depth = 0 → ∀ cs, Top cs → Top (c :: cs))
    (h : Unclosed opening closing Top depth none rest) :
    Unclosed opening closing Top depth none (c :: rest) := by
  cases h with
  | last h => exact last (htop rfl _ h)
  | close hi h => exact close (.plain hq ho hc hi) h

lemma cons_open (htop : NestedTop opening closing Top)
    (h : Unclosed opening closing Top (depth + 1) none rest) :
    Unclosed opening closing Top depth none (opening :: rest) := by
  cases h with
  | close hi h =>
    cases h with
    | last h => exact last (htop.enclosed hi h)
    | @close _ inner outer hi' h =>
      have := close (.enclosed hi hi') h
      rwa [List.append_assoc, List.cons_append] at this

lemma cons_close (h : Unclosed opening closing Top depth none rest) :
    Unclosed opening closing Top (depth + 1) none (closing :: rest) :=
  close .nil h

lemma cons_quote {q : Char} (htop : NestedTop opening closing Top) (hq : isQuote q = true)
    (h : Unclosed opening closing Top depth (some q) rest) :
    Unclosed opening closing Top depth none (q :: rest) := by
  cases h with
  | unquote hr h =>
    cases h with
    | last h => exact last (htop.quoted hq hr h)
    | close hi h =>
      have := close (.quoted hq hr hi) h
      rwa [List.append_assoc, List.cons_append] at this

lemma cons_unquote {q : Char} (h : Unclosed opening closing Top depth none rest) :
    Unclosed opening closing Top depth (some q) (q :: rest) :=
  unquote List.not_mem_nil h

lemma cons_hidden {q c : Char} (hc : c ≠ q) (h : Unclosed opening closing Top depth (some q) rest) :
    Unclosed opening closing Top depth (some q) (c :: rest) := by
  cases h with
  | @unquote _ _ run rest hr h =>
    have hrun : q ∉ c :: run := by simp [hr, Ne.symm hc]
    exact unquote hrun h

/-- The step over a character that is no bracket, unless it is hidden. -/
lemma cons_other {quote : Option OpenQuote} {column : Nat} {c : Char}
    (htop : NestedTop opening closing Top)
    (hc : quote = none → c ≠ opening ∧ c ≠ closing)
    (hplain : quote = none → isQuote c = false → depth = 0 → ∀ cs, Top cs → Top (c :: cs))
    (h : Unclosed opening closing Top depth ((OpenQuote.next quote column c).map OpenQuote.mark)
      rest) :
    Unclosed opening closing Top depth (quote.map OpenQuote.mark) (c :: rest) := by
  cases quote with
  | none =>
    obtain ⟨ho, hc⟩ := hc rfl
    cases hq : isQuote c with
    | false =>
      rw [OpenQuote.next_none_of_not_isQuote column hq] at h
      exact cons_plain hq ho hc (hplain rfl hq) h
    | true =>
      simp only [OpenQuote.next, hq, if_true, Option.map_some] at h
      exact cons_quote htop hq h
  | some q =>
    by_cases hcq : c = q.mark
    · subst hcq
      rw [OpenQuote.next_mark] at h
      exact cons_unquote h
    · simp only [OpenQuote.next, if_neg hcq] at h
      exact cons_hidden hcq h

end Unclosed

/-! ### Reading over a nested text -/

namespace Expression

/-- Put a text in front of the body that has been read. -/
def prepend (u : List Char) (r : List Char × List Char) : List Char × List Char :=
  (u ++ r.1, r.2)

lemma map_prepend_map_prepend (u v : List Char)
    (r : Except (Option OpenQuote) (List Char × List Char)) :
    (r.map (prepend v)).map (prepend u) = r.map (prepend (u ++ v)) := by
  cases r <;> simp [Except.map, prepend]

lemma readBody_close_zero (column : Nat) (cs : List Char) :
    readBody 0 none column (callClose :: cs) = .ok ([], cs) := by
  simp [readBody]

lemma readBody_close_succ (depth column : Nat) (cs : List Char) :
    readBody (depth + 1) none column (callClose :: cs)
      = (readBody depth none (column + 1) cs).map (prepend [callClose]) := by
  simp only [readBody, Option.isNone_none, and_self, if_true]
  rfl

lemma readBody_open (depth column : Nat) (cs : List Char) :
    readBody depth none column (callOpen :: cs)
      = (readBody (depth + 1) none (column + 1) cs).map (prepend [callOpen]) := by
  simp only [readBody, Option.isNone_none, true_and, if_true]
  rfl

/-- A character that is no parenthesis changes the quoted run alone. -/
lemma readBody_other {quote : Option OpenQuote} {c : Char}
    (h : quote = none → c ≠ callOpen ∧ c ≠ callClose) (depth column : Nat) (cs : List Char) :
    readBody depth quote column (c :: cs)
      = (readBody depth (OpenQuote.next quote column c) (column + 1) cs).map (prepend [c]) := by
  have ho : ¬(quote.isNone ∧ c = callOpen) := by
    rintro ⟨hn, hc⟩
    exact (h (Option.isNone_iff_eq_none.1 hn)).1 hc
  have hc : ¬(quote.isNone ∧ c = callClose) := by
    rintro ⟨hn, hc⟩
    exact (h (Option.isNone_iff_eq_none.1 hn)).2 hc
  simp only [readBody, if_neg ho, if_neg hc]
  rfl

/-- Within a quoted run everything up to its quote character is passed over. -/
lemma readBody_run_append (q : OpenQuote) {run : List Char} (hr : q.mark ∉ run)
    (depth column : Nat) (rest : List Char) :
    readBody depth (some q) column (run ++ q.mark :: rest)
      = (readBody depth none (column + (run.length + 1)) rest).map (prepend (run ++ [q.mark])) := by
  induction run generalizing column with
  | nil =>
    rw [List.nil_append, readBody_other (by simp), OpenQuote.next_mark]
    rfl
  | cons c run ih =>
    obtain ⟨hc, hr⟩ := not_or.1 (mt List.mem_cons.2 hr)
    have hnext : OpenQuote.next (some q) column c = some q := by
      simp [OpenQuote.next, Ne.symm hc]
    rw [List.cons_append, readBody_other (by simp), hnext, ih hr, map_prepend_map_prepend]
    simp [Nat.add_comm, Nat.add_left_comm]

/-- A nested text belongs to the body that is being read, at any depth. -/
theorem readBody_nested_append {u : List Char} (h : Nested callOpen callClose u)
    (depth column : Nat) (rest : List Char) :
    readBody depth none column (u ++ rest)
      = (readBody depth none (column + u.length) rest).map (prepend u) := by
  induction h generalizing depth column rest with
  | nil =>
    rw [List.nil_append, List.length_nil, Nat.add_zero]
    cases readBody depth none column rest <;> rfl
  | plain hq ho hc _ ih =>
    rw [List.cons_append, readBody_other fun _ => ⟨ho, hc⟩,
      OpenQuote.next_none_of_not_isQuote column hq, ih, map_prepend_map_prepend]
    simp [Nat.add_comm, Nat.add_left_comm]
  | @quoted q run cs hq hr _ ih =>
    have hp : q ≠ callOpen ∧ q ≠ callClose := ⟨ne_of_isQuote hq rfl, ne_of_isQuote hq rfl⟩
    have hnext : OpenQuote.next none column q = some ⟨q, column⟩ := by
      simp [OpenQuote.next, hq]
    rw [List.append_assoc, List.cons_append, List.cons_append,
      readBody_other fun _ => hp, hnext,
      readBody_run_append ⟨q, column⟩ hr, ih, map_prepend_map_prepend, map_prepend_map_prepend]
    simp [Nat.add_comm, Nat.add_left_comm]
  | enclosed _ _ ihi ih =>
    rw [List.append_assoc, List.cons_append, List.cons_append, readBody_open, ihi,
      readBody_close_succ, ih]
    simp only [map_prepend_map_prepend]
    simp [Nat.add_comm, Nat.add_left_comm]

end Expression

end FormatExpr
