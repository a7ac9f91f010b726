/-!
# Decimal numerals

Runs of ASCII digits, their value, and the digits of a number. `value_digits` says that the
digits of a number have that number as their value.
-/

namespace FormatExpr.Text

/-- The text is a run of one or more ASCII digits. -/
def isDigits (cs : List Char) : Bool :=
  !cs.isEmpty && cs.all Char.isDigit

/-- The number that a run of digits denotes; leading zeros count for nothing. -/
def value (cs : List Char) : Nat :=
  Nat.ofDigitChars 10 cs 0

/-- The digits of a number, without leading zeros. -/
def digits (n : Nat) : List Char :=
  Nat.toDigits 10 n

@[simp] theorem value_digits (n : Nat) : value (digits n) = n :=
  Nat.ofDigitChars_ten_toDigits

theorem isDigits_digits (n : Nat) : isDigits (digits n) = true := by
  simp only [isDigits, digits, Bool.and_eq_true, Bool.not_eq_true', List.isEmpty_eq_false_iff,
    List.all_eq_true]
  exact ⟨Nat.toDigits_ne_nil, fun c hc => Nat.isDigit_of_mem_toDigits (by decide) (by decide) hc⟩

/-- Ten to the power `k`. -/
def powTen (k : Nat) : Nat :=
  Nat.pow 10 k

/-- The number with its sign: a minus for a negative number and nothing else. -/
def signed (i : Int) : List Char :=
  if i < 0 then '-' :: digits i.natAbs else digits i.natAbs

/-- An optional sign and the text after it; the flag tells a minus. -/
def splitSign : List Char → Bool × List Char
  | '-' :: cs => (true, cs)
  | '+' :: cs => (false, cs)
  | cs => (false, cs)

/-- The whole and fractional digits of a text with a point between two runs of digits. -/
def pointed? (cs : List Char) : Option (List Char × List Char) :=
  let whole := cs.takeWhile (· ≠ '.')
  match cs.dropWhile (· ≠ '.') with
  | [] => none
  | _ :: fraction => if isDigits whole && isDigits fraction then some (whole, fraction) else none

end FormatExpr.Text
