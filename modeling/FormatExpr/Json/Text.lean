import FormatExpr.Binary64.Shortest
import FormatExpr.Json.Value
import FormatExpr.Text.Numeral

/-!
# The text of JSON values

The text that the streaming library writes for a value. There is no white space. Floating point
numbers are written as decimals with a point and without an exponent, so that they stay apart from
integers; an infinite number and NaN are written as null. Another library may write another text of
the same value.
-/

namespace FormatExpr.Json

/-- A hexadecimal digit for a number below 16. -/
def hexDigit (n : Nat) : Char :=
  if n < 10 then Char.ofNat ('0'.toNat + n) else Char.ofNat ('a'.toNat + (n - 10))

/-- The letter of the short escape for a character, if the character is written with one. -/
def escapeLetter? : Char → Option Char
  | '"' => some '"'
  | '\\' => some '\\'
  | '\x08' => some 'b'
  | '\x0c' => some 'f'
  | '\n' => some 'n'
  | '\r' => some 'r'
  | '\t' => some 't'
  | _ => none

/-- A character inside a string. Control characters without a short escape are written as code
units. -/
def escaped (c : Char) : List Char :=
  match escapeLetter? c with
  | some letter => ['\\', letter]
  | none =>
    if c.toNat < 0x20 then
      ['\\', 'u', '0', '0', hexDigit (c.toNat / 16), hexDigit (c.toNat % 16)]
    else [c]

/-- A string between its quotes. -/
def quotedText (s : String) : List Char :=
  '"' :: s.toList.flatMap escaped ++ ['"']

/-- A number, if it can be written. -/
def numberText : Number → List Char
  | .integer i => Text.signed i.toInt
  | .float x => if x.isFinite then x.text else "null".toList

namespace Value

mutual

/-- The text of a value. -/
def text : Value → List Char
  | null => "null".toList
  | boolean b => if b then "true".toList else "false".toList
  | number n => numberText n
  | string s => quotedText s
  | list items => '[' :: itemsText items ++ [']']
  | map members => '{' :: membersText members ++ ['}']

/-- The texts of several values with a comma between neighbours. -/
def itemsText : List Value → List Char
  | [] => []
  | [v] => v.text
  | v :: w :: rest => v.text ++ ',' :: itemsText (w :: rest)

/-- The texts of several members with a comma between neighbours. -/
def membersText : List (String × Value) → List Char
  | [] => []
  | [(key, v)] => quotedText key ++ ':' :: v.text
  | (key, v) :: m :: rest => quotedText key ++ ':' :: v.text ++ ',' :: membersText (m :: rest)

end

end Value

end FormatExpr.Json
