import FormatExpr.Number

/-!
# Literals

The values that the arguments of a call denote, and their text. Strings are written between
quotes without any escape: single quotes, or double quotes around a string that holds a single
quote.
-/

namespace FormatExpr

/-- The value of one argument. -/
inductive Literal where
  | string (s : String)
  | number (n : Number)
  | boolean (b : Bool)
  | list (items : List Literal)
  deriving Repr, Inhabited

namespace Literal

/-! ### Views -/

/-- The characters of a string. -/
def asString? : Literal → Option String
  | string s => some s
  | _ => none

/-- The value of an integer. -/
def asInteger? : Literal → Option Int64
  | number (.integer i) => some i
  | _ => none

/-- The value of any number, as a floating point number. -/
def asFloat? : Literal → Option Binary64
  | number n => some n.toBinary64
  | _ => none

/-- The value of a boolean. -/
def asBoolean? : Literal → Option Bool
  | boolean b => some b
  | _ => none

/-- The elements of a list. -/
def asList? : Literal → Option (List Literal)
  | list items => some items
  | _ => none

/-! ### Equality -/

mutual

/-- Equality of literals. Literals of two kinds differ, and floating point numbers compare as the
arithmetic standard says, so that a literal holding NaN differs from itself. -/
def numEq : Literal → Literal → Bool
  | string s, string t => s == t
  | number m, number n => m.numEq n
  | boolean b, boolean c => b == c
  | list xs, list ys => numEqList xs ys
  | _, _ => false

/-- Equality of lists of literals, element by element. -/
def numEqList : List Literal → List Literal → Bool
  | [], [] => true
  | x :: xs, y :: ys => numEq x y && numEqList xs ys
  | _, _ => false

end

/-! ### Text -/

/-- The quote character that a string is written with. -/
def quoteFor (s : List Char) : Char :=
  if s.contains '\'' then '"' else '\''

/-- A string between its quotes. -/
def quoted (s : List Char) : List Char :=
  quoteFor s :: s ++ [quoteFor s]

mutual

/-- The text of a literal. -/
def text : Literal → List Char
  | string s => quoted s.toList
  | number n => n.text
  | boolean b => if b then "true".toList else "false".toList
  | list items => '[' :: textJoined items ++ [']']

/-- The texts of several literals with a comma and a space between neighbours. -/
def textJoined : List Literal → List Char
  | [] => []
  | [x] => text x
  | x :: y :: rest => text x ++ ',' :: ' ' :: textJoined (y :: rest)

end

/-- The text of a literal as a string. -/
def display (x : Literal) : String :=
  String.ofList x.text

end Literal

end FormatExpr
