import FormatExpr.Binary64.Basic
import FormatExpr.Text.Numeral

/-!
# Rounding to the nearest number

A quotient of natural numbers is rounded to the nearest 64-bit number, and of two equally near
ones to the one with the even significand. A quotient too large for every finite number becomes
infinity, one too small for every positive number becomes zero; both keep their sign.
-/

namespace FormatExpr

/-- The natural number nearest to `num / den`; of two equally near ones the even one. -/
def divNearestEven (num den : Nat) : Nat :=
  let floor := num / den
  let twice := 2 * (num % den)
  if twice < den then floor
  else if den < twice then floor + 1
  else if floor % 2 = 0 then floor else floor + 1

namespace Binary64

/-- The rank of the magnitude nearest to `num / den`. With the quotient counted in units, the step
between neighbouring magnitudes is two to the power `e`, the least power that leaves at most 53
binary digits, and `e * ranksPerExponent + m` is the rank of `m` such steps. -/
def nearestRank (num den : Nat) : Nat :=
  let scaled := num * unitsPerOne
  let e := Nat.log2 (scaled / den) - 52
  Nat.min infinityRank (e * ranksPerExponent + divNearestEven scaled (den <<< e))

theorem nearestRank_lt (num den : Nat) : nearestRank num den < rankCount :=
  Nat.lt_of_le_of_lt (Nat.min_le_left _ _) infinityRank_lt

/-- The number nearest to `num / den`, with a sign. -/
def nearest (negative : Bool) (num den : Nat) : Binary64 :=
  ⟨negative, nearestRank num den, nearestRank_lt num den⟩

/-- The number nearest to an integer. -/
def ofInt (i : Int) : Binary64 :=
  nearest (i < 0) i.natAbs 1

/-- The number nearest to `n` times ten to the power `exponent`. The two early answers spare the
powers of ten that decide nothing: from the 310th power on every number is infinite, and a
quotient below half a unit is nearer to zero than to the least positive number. -/
def ofDecimal (negative : Bool) (n : Nat) : (exponent : Int) → Binary64
  | .ofNat k =>
    if n = 0 then zero negative
    else if 310 ≤ k then infinity negative
    else nearest negative (n * Text.powTen k) 1
  | .negSucc k =>
    if n.log2 + 1076 ≤ 3 * (k + 1) then zero negative
    else nearest negative n (Text.powTen (k + 1))

end Binary64

end FormatExpr
