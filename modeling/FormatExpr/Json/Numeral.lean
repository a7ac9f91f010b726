import FormatExpr.Json.Value
import FormatExpr.Number

/-!
# JSON numerals

The grammar of numbers in JSON text, and the number that a numeral denotes. A numeral too large
for a floating point number denotes none. No midpoint between two floating point numbers has more
than `digitLimit` significant digits, so the digits after those matter only as a whole.
-/

namespace FormatExpr.Json

/-- The parts of a numeral: its sign, the digits before the point, the digits after the point if
there is one, and the power of ten if one is given. -/
structure Numeral where
  negative : Bool
  whole : List Char
  fraction : Option (List Char)
  exponent : Option Int
  deriving DecidableEq, Repr

namespace Numeral

/-! ### Reading -/

/-- The digits at the start of a text, of which there must be one, and the rest. -/
def readDigits (cs : List Char) : Option (List Char × List Char) :=
  let digits := cs.takeWhile Char.isDigit
  if digits.isEmpty then none else some (digits, cs.dropWhile Char.isDigit)

/-- The digits before the point: a zero stands alone. -/
def readWhole (cs : List Char) : Option (List Char × List Char) := do
  let (digits, rest) ← readDigits cs
  if digits.head? = some '0' ∧ digits.length ≠ 1 then none else some (digits, rest)

/-- A point and digits, or nothing. -/
def readFraction : List Char → Option (Option (List Char) × List Char)
  | '.' :: cs => (readDigits cs).map fun (digits, rest) => (some digits, rest)
  | cs => some (none, cs)

/-- A power of ten, or nothing. -/
def readExponent : List Char → Option (Option Int × List Char)
  | [] => some (none, [])
  | c :: cs =>
    if c = 'e' ∨ c = 'E' then do
      let (negative, unsigned) := Text.splitSign cs
      let (digits, rest) ← readDigits unsigned
      let size : Int := Text.value digits
      some (some (if negative then -size else size), rest)
    else some (none, c :: cs)

/-- An optional minus and the text after it. -/
def splitMinus : List Char → Bool × List Char
  | '-' :: cs => (true, cs)
  | cs => (false, cs)

/-- The longest numeral at the start of a text, and the rest. A text that starts like a numeral
and breaks off has none. -/
def read (cs : List Char) : Option (Numeral × List Char) := do
  let (whole, afterWhole) ← readWhole (splitMinus cs).2
  let (fraction, afterFraction) ← readFraction afterWhole
  let (exponent, rest) ← readExponent afterFraction
  some (⟨(splitMinus cs).1, whole, fraction, exponent⟩, rest)

/-! ### Value -/

/-- How many significant digits of a numeral are read one by one. -/
def digitLimit : Nat := 768

/-- The digits after the point without the zeros at their end. -/
def places (n : Numeral) : List Char :=
  ((n.fraction.getD []).reverse.dropWhile (· = '0')).reverse

/-- The digits of a numeral from the first one that is not zero. -/
def significant (n : Numeral) : List Char :=
  (n.whole ++ n.places).dropWhile (· = '0')

/-- The magnitude of a numeral as a natural number and the power of ten that it is multiplied by.
Digits beyond the limit count as a single digit one: they only tell that the magnitude is a little
larger than the digits before them say, even if all of them are zeros. -/
def magnitude (n : Numeral) : Nat × Int :=
  let digits := n.significant
  let exponent := n.exponent.getD 0 - n.places.length
  if digits.length ≤ digitLimit then (Text.value digits, exponent)
  else (10 * Text.value (digits.take digitLimit) + 1, exponent + (digits.length - digitLimit - 1))

/-- The floating point number that is nearest to the magnitude, unless that is infinite. -/
def nearest? (n : Numeral) : Option Number :=
  let x := Binary64.ofDecimal n.negative n.magnitude.1 n.magnitude.2
  if x.isFinite then some (.float x) else none

/-- The number that a numeral denotes. Zero with a minus is the negative floating point zero. -/
def value? (n : Numeral) : Option Number :=
  match n.fraction, n.exponent with
  | none, none =>
    let size := Text.value n.whole
    if n.negative ∧ size = 0 then some (.float (.zero true))
    else
      match FormatExpr.Number.ofInteger n.negative size with
      | .integer i => some (.integer i)
      | .float _ => n.nearest?
  | _, _ => n.nearest?

/-! ### Size -/

theorem length_lt_of_readDigits {cs digits rest : List Char}
    (h : readDigits cs = some (digits, rest)) : rest.length < cs.length := by
  simp only [readDigits] at h
  split at h
  · simp at h
  · next hne =>
    simp only [Option.some.injEq, Prod.mk.injEq] at h
    obtain ⟨rfl, rfl⟩ := h
    have hlen := congrArg List.length
      (List.takeWhile_append_dropWhile (p := Char.isDigit) (l := cs))
    have hpos : 0 < (cs.takeWhile Char.isDigit).length := by
      cases hd : cs.takeWhile Char.isDigit <;> simp_all
    simp only [List.length_append] at hlen
    omega

theorem length_le_of_readFraction {cs rest : List Char} {fraction : Option (List Char)}
    (h : readFraction cs = some (fraction, rest)) : rest.length ≤ cs.length := by
  unfold readFraction at h
  split at h
  · next ds =>
    cases hd : readDigits ds with
    | none => simp [hd] at h
    | some r =>
      have := length_lt_of_readDigits hd
      simp only [hd, Option.map_some, Option.some.injEq, Prod.mk.injEq] at h
      obtain ⟨-, rfl⟩ := h
      simp only [List.length_cons]
      omega
  · simp_all

theorem length_splitSign_le (cs : List Char) : (Text.splitSign cs).2.length ≤ cs.length := by
  unfold Text.splitSign
  split <;> simp

theorem length_le_of_readExponent {cs rest : List Char} {exponent : Option Int}
    (h : readExponent cs = some (exponent, rest)) : rest.length ≤ cs.length := by
  unfold readExponent at h
  split at h
  · simp_all
  · next c cs =>
    split at h
    · cases hd : readDigits (Text.splitSign cs).2 with
      | none => simp [hd] at h
      | some r =>
        have := length_lt_of_readDigits hd
        have := length_splitSign_le cs
        simp only [hd, Option.bind_eq_bind, Option.bind_some, Option.some.injEq,
          Prod.mk.injEq] at h
        obtain ⟨-, rfl⟩ := h
        simp only [List.length_cons]
        omega
    · simp_all

theorem length_lt_of_readWhole {cs whole rest : List Char}
    (h : readWhole cs = some (whole, rest)) : rest.length < cs.length := by
  simp only [readWhole, Option.bind_eq_bind, Option.bind_eq_some_iff] at h
  obtain ⟨⟨digits, r⟩, hd, h⟩ := h
  have := length_lt_of_readDigits hd
  split at h <;> simp_all

/-- A numeral has at least one character. -/
theorem length_lt_of_read {cs rest : List Char} {n : Numeral} (h : read cs = some (n, rest)) :
    rest.length < cs.length := by
  simp only [read, Option.bind_eq_bind, Option.bind_eq_some_iff, Option.some.injEq,
    Prod.mk.injEq] at h
  obtain ⟨⟨whole, r₁⟩, h₁, ⟨fraction, r₂⟩, h₂, ⟨exponent, r₃⟩, h₃, -, rfl⟩ := h
  have hm : (splitMinus cs).2.length ≤ cs.length := by
    unfold splitMinus
    split <;> simp
  have := length_lt_of_readWhole h₁
  have := length_le_of_readFraction h₂
  have := length_le_of_readExponent h₃
  dsimp only at *
  omega

end Numeral

end FormatExpr.Json
