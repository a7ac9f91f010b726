import FormatExpr.Binary64.Nearest

/-!
# The decimal text of a number

A number without a fraction is written in full with `.0` after it. A number with a fraction is
written with the least count of decimal places for which some decimal reads back as the number;
of two such decimals the nearer one is taken, and of two equally near ones the larger. There is
never an exponent.
-/

namespace FormatExpr.Binary64

/-- The decimal `n / powTen places` reads back as the number with rank `rank`. -/
def readsBack (rank places n : Nat) : Bool :=
  nearestRank n (Text.powTen places) == rank

/-- The decimal with the given count of places that reads back as the number with rank `rank`,
without its point. Only the two neighbours of the number come into question. -/
def decimalAt? (rank places : Nat) : Option Nat :=
  let scaled := unitsOfRank rank * Text.powTen places
  let below := scaled / unitsPerOne
  let belowFits := readsBack rank places below
  let aboveFits := readsBack rank places (below + 1)
  if belowFits && aboveFits then
    if 2 * (scaled % unitsPerOne) < unitsPerOne then some below else some (below + 1)
  else if belowFits then some below
  else if aboveFits then some (below + 1)
  else none

/-- The shortest decimal that reads back as the number with rank `rank`: its count of places, and
the decimal without its point. With 1074 places every finite number is written exactly. -/
def shortest (rank : Nat) : Nat × Nat :=
  let found := (List.range' 1 1073).findSome? fun places =>
    (decimalAt? rank places).map fun n => (places, n)
  found.getD (1074, unitsOfRank rank * Text.powTen 1074 / unitsPerOne)

/-- The digits of `n / powTen places`, with at least one digit before the point. -/
def pointedDigits (places n : Nat) : List Char :=
  let scale := Text.powTen places
  let fraction := Text.digits (n % scale)
  Text.digits (n / scale) ++ '.' :: List.replicate (places - fraction.length) '0' ++ fraction

/-- The digits of the magnitude of a finite number. -/
def magnitudeText (x : Binary64) : List Char :=
  if x.isIntegral then Text.digits (x.units / unitsPerOne) ++ ['.', '0']
  else
    let (places, n) := shortest x.rank
    pointedDigits places n

/-- The text of a number. -/
def text (x : Binary64) : List Char :=
  if x.isNaN then "NaN".toList
  else
    let magnitude := if x.isInfinite then "inf".toList else x.magnitudeText
    if x.negative then '-' :: magnitude else magnitude

end FormatExpr.Binary64
