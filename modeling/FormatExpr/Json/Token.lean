import FormatExpr.Json.Numeral

/-!
# JSON tokens

A JSON text is a sequence of tokens with white space between them. The sequence ends with a fault
where the text stops being one. Two tokens may be sound and still have no value: a numeral too
large for a number, and a string that names half of a surrogate pair.
-/

namespace FormatExpr.Json

/-- A token of JSON text. -/
inductive Token where
  | openList
  | closeList
  | openMap
  | closeMap
  | comma
  | colon
  | null
  | boolean (b : Bool)
  | number (n : Option Number)
  | string (s : Option String)
  | fault
  deriving DecidableEq, Repr

namespace Token

/-! ### Strings -/

/-- A character of a string as it is spelled: by itself or by a short escape, or as a code unit of
UTF-16. -/
inductive Spelling where
  | char (c : Char)
  | unit (u : Nat)
  deriving DecidableEq, Repr

/-- The value of a hexadecimal digit. -/
def hexDigit? (c : Char) : Option Nat :=
  if c.isDigit then some (c.toNat - '0'.toNat)
  else if 'a' ≤ c ∧ c ≤ 'f' then some (c.toNat - 'a'.toNat + 10)
  else if 'A' ≤ c ∧ c ≤ 'F' then some (c.toNat - 'A'.toNat + 10)
  else none

/-- The code unit of four hexadecimal digits. -/
def hexUnit? (a b c d : Char) : Option Nat := do
  some ((((← hexDigit? a) * 16 + (← hexDigit? b)) * 16 + (← hexDigit? c)) * 16 + (← hexDigit? d))

/-- The character that stands for a short escape. -/
def escape? : Char → Option Char
  | '"' => some '"'
  | '\\' => some '\\'
  | '/' => some '/'
  | 'b' => some '\x08'
  | 'f' => some '\x0c'
  | 'n' => some '\n'
  | 'r' => some '\r'
  | 't' => some '\t'
  | _ => none

/-- The spellings up to the closing quote, and the rest. Control characters must be escaped. -/
def readSpellings : List Char → Option (List Spelling × List Char)
  | [] => none
  | '"' :: cs => some ([], cs)
  | '\\' :: 'u' :: a :: b :: c :: d :: cs => do
    let u ← hexUnit? a b c d
    let (later, rest) ← readSpellings cs
    some (.unit u :: later, rest)
  | '\\' :: c :: cs => do
    let e ← escape? c
    let (later, rest) ← readSpellings cs
    some (.char e :: later, rest)
  | c :: cs =>
    if c.toNat < 0x20 then none
    else do
      let (later, rest) ← readSpellings cs
      some (.char c :: later, rest)

/-- The code unit is the first of a surrogate pair. -/
def isHigh (u : Nat) : Bool := 0xD800 ≤ u && u < 0xDC00

/-- The code unit is the second of a surrogate pair. -/
def isLow (u : Nat) : Bool := 0xDC00 ≤ u && u < 0xE000

/-- The characters that spellings stand for; the halves of a surrogate pair must be neighbours. -/
def join : List Spelling → Option (List Char)
  | [] => some []
  | .char c :: later => (join later).map (c :: ·)
  | .unit u :: .unit v :: later =>
    if isHigh u && isLow v then
      (join later).map (Char.ofNat (0x10000 + (u - 0xD800) * 0x400 + (v - 0xDC00)) :: ·)
    else if isHigh u || isLow u then none
    else (join (.unit v :: later)).map (Char.ofNat u :: ·)
  | .unit u :: later =>
    if isHigh u || isLow u then none else (join later).map (Char.ofNat u :: ·)

/-! ### Tokens -/

/-- The character may stand between tokens. -/
def isSpace (c : Char) : Bool :=
  c == ' ' || c == '\t' || c == '\n' || c == '\r'

/-- The token at the start of a text, and the rest. -/
def read : List Char → Option (Token × List Char)
  | '[' :: cs => some (openList, cs)
  | ']' :: cs => some (closeList, cs)
  | '{' :: cs => some (openMap, cs)
  | '}' :: cs => some (closeMap, cs)
  | ',' :: cs => some (comma, cs)
  | ':' :: cs => some (colon, cs)
  | 'n' :: 'u' :: 'l' :: 'l' :: cs => some (null, cs)
  | 't' :: 'r' :: 'u' :: 'e' :: cs => some (boolean true, cs)
  | 'f' :: 'a' :: 'l' :: 's' :: 'e' :: cs => some (boolean false, cs)
  | '"' :: cs => do
    let (spellings, rest) ← readSpellings cs
    some (string ((join spellings).map String.ofList), rest)
  | cs => do
    let (n, rest) ← Numeral.read cs
    some (number n.value?, rest)

theorem length_lt_of_readSpellings {cs rest : List Char} {spellings : List Spelling}
    (h : readSpellings cs = some (spellings, rest)) : rest.length < cs.length := by
  fun_induction readSpellings cs generalizing spellings rest <;>
    simp_all only [Option.bind_eq_bind, Option.bind_eq_some_iff, Option.some.injEq,
      Prod.mk.injEq, List.length_cons, reduceCtorEq] <;>
    grind

/-- A token has at least one character. -/
theorem length_lt_of_read {cs rest : List Char} {t : Token} (h : read cs = some (t, rest)) :
    rest.length < cs.length := by
  unfold read at h
  split at h
  case h_10 =>
    simp only [Option.bind_eq_bind, Option.bind_eq_some_iff, Option.some.injEq,
      Prod.mk.injEq] at h
    obtain ⟨⟨spellings, r⟩, hs, -, rfl⟩ := h
    have := length_lt_of_readSpellings hs
    simp only [List.length_cons]
    omega
  case h_11 =>
    simp only [Option.bind_eq_bind, Option.bind_eq_some_iff, Option.some.injEq,
      Prod.mk.injEq] at h
    obtain ⟨⟨n, r⟩, hn, -, rfl⟩ := h
    exact Numeral.length_lt_of_read hn
  all_goals
    simp only [Option.some.injEq, Prod.mk.injEq] at h
    obtain ⟨-, rfl⟩ := h
    simp only [List.length_cons]
    omega

/-- Drop the white space at the start. -/
def skipSpace (cs : List Char) : List Char :=
  cs.dropWhile isSpace

/-- The tokens of a text; a fault stands for all that follows the last sound token. -/
def readAll (cs : List Char) : List Token :=
  if (skipSpace cs).isEmpty then []
  else
    match _h : read (skipSpace cs) with
    | none => [fault]
    | some (t, rest) => t :: readAll rest
termination_by cs.length
decreasing_by
  have := length_lt_of_read _h
  have : (skipSpace cs).length ≤ cs.length := (List.dropWhile_sublist _).length_le
  omega

end Token

end FormatExpr.Json
