import FormatExpr.Binary64.Shortest

/-!
# Numbers

A number is an integer of 64 bits or a binary floating point number. An integer outside the range
of 64 bits is held as the nearest floating point number.
-/

namespace FormatExpr

/-- An integer or a floating point number. -/
inductive Number where
  | integer (i : Int64)
  | float (x : Binary64)
  deriving DecidableEq, Repr

namespace Number

/-- The number for a sign and a natural number of any size. -/
def ofInteger (negative : Bool) (n : Nat) : Number :=
  let i : Int := if negative then -n else n
  if Int64.minValue.toInt ≤ i ∧ i ≤ Int64.maxValue.toInt then .integer (Int64.ofInt i)
  else .float (Binary64.ofDecimal negative n 0)

/-- The number as a floating point number: integers widen to the nearest one. -/
def toBinary64 : Number → Binary64
  | integer i => Binary64.ofInt i.toInt
  | float x => x

/-- Equality of numbers of one kind; an integer never equals a floating point number. -/
def numEq : Number → Number → Bool
  | integer i, integer j => i == j
  | float x, float y => x.numEq y
  | _, _ => false

/-- The text of a number. -/
def text : Number → List Char
  | integer i => Text.signed i.toInt
  | float x => x.text

end Number

end FormatExpr
