/-!
# Delimiters and quotes

The characters that give an expression its structure. A quote character hides everything up to
the next quote character of the same kind: nothing in between opens, closes or separates.
-/

namespace FormatExpr

/-- Opens the arguments of a call. -/
abbrev callOpen : Char := '('

/-- Closes the arguments of a call. -/
abbrev callClose : Char := ')'

/-- Stands between two arguments, and between two elements of a list. -/
abbrev separator : Char := ','

/-- Opens a list. -/
abbrev listOpen : Char := '['

/-- Closes a list. -/
abbrev listClose : Char := ']'

/-- The two quote characters. -/
def quotes : List Char := ['\'', '"']

/-- The character opens a quoted run. -/
def isQuote (c : Char) : Bool :=
  quotes.contains c

/-- A quote character is none of the other characters. -/
theorem ne_of_isQuote {q c : Char} (hq : isQuote q = true) (hc : isQuote c = false) : q ≠ c := by
  intro h
  rw [h, hc] at hq
  cases hq

/-- A quoted run that has not been closed: its quote character and where that stands. -/
structure OpenQuote where
  mark : Char
  column : Nat
  deriving DecidableEq, Repr

/-- The quoted run that is open after reading the character `c` at `column`. -/
def OpenQuote.next (quote : Option OpenQuote) (column : Nat) (c : Char) : Option OpenQuote :=
  match quote with
  | some q => if c = q.mark then none else some q
  | none => if isQuote c then some ⟨c, column⟩ else none

@[simp] theorem OpenQuote.next_none_of_not_isQuote {c : Char} (column : Nat)
    (h : isQuote c = false) : OpenQuote.next none column c = none := by
  simp [OpenQuote.next, h]

@[simp] theorem OpenQuote.next_mark (q : OpenQuote) (column : Nat) :
    OpenQuote.next (some q) column q.mark = none := by
  simp [OpenQuote.next]

end FormatExpr
