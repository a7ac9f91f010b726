import FormatExpr.Argument.Error
import FormatExpr.Text.Delimiter

/-!
# Pieces of an argument text

A text is split at its separators, except for those inside a quoted run or inside a list. Each
piece knows how many characters stand before it, so that columns inside it can be told.
-/

namespace FormatExpr

/-- A part of an argument text and the number of characters before it. -/
structure Piece where
  text : List Char
  offset : Nat
  deriving DecidableEq, Repr

namespace Piece

/-- Put a character in front of the first piece; the later pieces stay. -/
def extend (c : Char) (pieces : List Char × List Piece) : List Char × List Piece :=
  (c :: pieces.1, pieces.2)

/-- The rest of the piece being read and the pieces after it. `lists` holds the columns of the
open brackets, innermost first, and `quote` the open quoted run. -/
def splitFrom (lists : List Nat) (quote : Option OpenQuote) (column : Nat) :
    List Char → Except ArgumentError (List Char × List Piece)
  | [] =>
    match quote, lists with
    | some q, _ => .error (.openQuote q.mark q.column)
    | none, bracket :: _ => .error (.openBracket bracket)
    | none, [] => .ok ([], [])
  | c :: cs =>
    if quote.isSome then
      (splitFrom lists (OpenQuote.next quote column c) (column + 1) cs).map (extend c)
    else if c = listOpen then
      (splitFrom (column :: lists) none (column + 1) cs).map (extend c)
    else if c = listClose then
      match lists with
      | [] => .error (.strayBracket column)
      | _ :: outer => (splitFrom outer none (column + 1) cs).map (extend c)
    else if c = separator ∧ lists = [] then
      (splitFrom [] none (column + 1) cs).map fun (text, later) => ([], ⟨text, column⟩ :: later)
    else
      (splitFrom lists (OpenQuote.next none column c) (column + 1) cs).map (extend c)

/-- Split a text that has `offset` characters before it. -/
def split (offset : Nat) (text : List Char) : Except ArgumentError (List Piece) :=
  (splitFrom [] none (offset + 1) text).map fun (first, later) => ⟨first, offset⟩ :: later

/-! ### Size -/

private theorem length_splitFrom_le {lists : List Nat} {quote : Option OpenQuote} {column : Nat}
    {text first : List Char} {later : List Piece}
    (h : splitFrom lists quote column text = .ok (first, later)) :
    first.length ≤ text.length ∧ ∀ p ∈ later, p.text.length ≤ text.length := by
  have step : ∀ {lists quote column} {c : Char} {cs first : List Char} {later : List Piece},
      (∀ {first later}, splitFrom lists quote column cs = .ok (first, later) →
        first.length ≤ cs.length ∧ ∀ p ∈ later, p.text.length ≤ cs.length) →
      (splitFrom lists quote column cs).map (extend c) = .ok (first, later) →
      first.length ≤ (c :: cs).length ∧ ∀ p ∈ later, p.text.length ≤ (c :: cs).length := by
    intro lists quote column c cs first later ih h
    cases hs : splitFrom lists quote column cs with
    | error e => simp [hs, Except.map] at h
    | ok r =>
      simp only [hs, Except.map, extend, Except.ok.injEq, Prod.mk.injEq] at h
      obtain ⟨rfl, rfl⟩ := h
      have := ih hs
      exact ⟨by simpa using this.1, fun p hp => Nat.le_succ_of_le (this.2 p hp)⟩
  induction text generalizing lists quote column first later with
  | nil =>
    unfold splitFrom at h
    split at h <;> simp_all
  | cons c cs ih =>
    unfold splitFrom at h
    split at h
    · exact step ih h
    · split at h
      · exact step ih h
      · split at h
        · split at h
          · simp at h
          · exact step ih h
        · split at h
          · cases hs : splitFrom [] none (column + 1) cs with
            | error e => simp [hs, Except.map] at h
            | ok r =>
              simp only [hs, Except.map, Except.ok.injEq, Prod.mk.injEq] at h
              obtain ⟨rfl, rfl⟩ := h
              have := ih hs
              refine ⟨by simp, fun p hp => ?_⟩
              rcases List.mem_cons.1 hp with rfl | hp
              · exact Nat.le_succ_of_le this.1
              · exact Nat.le_succ_of_le (this.2 p hp)
          · exact step ih h

/-- No piece is longer than the text it is cut from. -/
theorem length_le_of_mem_split {offset : Nat} {text : List Char} {pieces : List Piece}
    (h : split offset text = .ok pieces) {p : Piece} (hp : p ∈ pieces) :
    p.text.length ≤ text.length := by
  unfold split at h
  cases hs : splitFrom [] none (offset + 1) text with
  | error e => simp [hs, Except.map] at h
  | ok r =>
    simp only [hs, Except.map, Except.ok.injEq] at h
    subst h
    have := length_splitFrom_le hs
    rcases List.mem_cons.1 hp with rfl | hp
    · exact this.1
    · exact this.2 p hp

/-- A text has at least one piece, be it empty. -/
theorem ne_nil_of_split {offset : Nat} {text : List Char} {pieces : List Piece}
    (h : split offset text = .ok pieces) : pieces ≠ [] := by
  unfold split at h
  cases hs : splitFrom [] none (offset + 1) text with
  | error e => simp [hs, Except.map] at h
  | ok r =>
    simp only [hs, Except.map, Except.ok.injEq] at h
    simp [← h]

end Piece

end FormatExpr
