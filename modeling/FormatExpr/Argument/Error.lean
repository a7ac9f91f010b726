/-!
# Errors of argument decoding

What can be wrong with the text between the parentheses of a call. Columns count characters of
that text from one.
-/

namespace FormatExpr

/-- Why an argument text has no value. -/
inductive ArgumentError where
  /-- A quote at `column` is never closed. -/
  | openQuote (quote : Char) (column : Nat)
  /-- A list opened at `column` is never closed. -/
  | openBracket (column : Nat)
  /-- A list is closed at `column` that was never opened. -/
  | strayBracket (column : Nat)
  deriving DecidableEq, Repr

namespace ArgumentError

/-- Where the offending character stands. -/
def column : ArgumentError → Nat
  | openQuote _ column => column
  | openBracket column => column
  | strayBracket column => column

/-- The error for a reader. -/
def message : ArgumentError → String
  | openQuote quote column => s!"unterminated {quote} quote starting at column {column}"
  | openBracket column => s!"unmatched '[' at column {column}"
  | strayBracket column => s!"unexpected ']' at column {column}"

end ArgumentError

end FormatExpr
