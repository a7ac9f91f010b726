import FormatExpr.Text.Delimiter

/-!
# Expressions

An expression is a name, or a name and an argument text between parentheses. The name is an ASCII
letter followed by ASCII letters and digits. The parenthesis after the name must be closed by the
last character: parentheses nest, and quotes hide the ones between them. Columns count characters
from one.
-/

namespace FormatExpr

/-- A name, and the text between the parentheses after it if there are any. -/
structure Expression where
  name : String
  arguments : Option String
  deriving DecidableEq, Repr

/-! ### Faults -/

/-- What is wrong with a text that is not an expression. -/
inductive ExpressionFault where
  | empty
  /-- The first character is not a letter. -/
  | noName (found : Char)
  /-- A character other than an opening parenthesis follows the name. -/
  | afterName (found : Char) (name : String)
  /-- A character follows the closing parenthesis. -/
  | afterCall (found : Char)
  | openQuote (mark : Char)
  | openCall
  deriving DecidableEq, Repr

/-- The fault for a reader. -/
def ExpressionFault.detail : ExpressionFault → String
  | empty => "empty expression"
  | noName found => s!"expected identifier, found '{found}'"
  | afterName found name => s!"unexpected character '{found}' after identifier '{name}'"
  | afterCall found => s!"unexpected character '{found}' after closing ')'"
  | openQuote mark => s!"unterminated {mark} quote in argument list"
  | openCall => "unterminated call, missing ')'"

/-- A fault and the column it is found at. -/
structure ExpressionError where
  column : Nat
  fault : ExpressionFault
  deriving DecidableEq, Repr

/-! ### Reading -/

/-- The text is an ASCII letter followed by ASCII letters and digits. -/
def isIdentifier : List Char → Bool
  | [] => false
  | c :: cs => c.isAlpha && cs.all Char.isAlphanum

namespace Expression

/-- The text up to the parenthesis that closes the call, and the text after that parenthesis.
`depth` counts the parentheses opened inside and `quote` is the open quoted run. A text that ends
too early gives the quoted run that is open at its end, if there is one. -/
def readBody (depth : Nat) (quote : Option OpenQuote) (column : Nat) :
    List Char → Except (Option OpenQuote) (List Char × List Char)
  | [] => .error quote
  | c :: cs =>
    let extend := fun (body, rest) => (c :: body, rest)
    if quote.isNone ∧ c = callClose then
      match depth with
      | 0 => .ok ([], cs)
      | outer + 1 => (readBody outer none (column + 1) cs).map extend
    else if quote.isNone ∧ c = callOpen then
      (readBody (depth + 1) none (column + 1) cs).map extend
    else
      (readBody depth (OpenQuote.next quote column c) (column + 1) cs).map extend

/-- The argument text of a call whose opening parenthesis stands at column `opening` and is
followed by `cs`. -/
def readCall (opening : Nat) (cs : List Char) : Except ExpressionError (List Char) :=
  match readBody 0 none (opening + 1) cs with
  | .ok (body, []) => .ok body
  | .ok (body, found :: _) => .error ⟨opening + body.length + 2, .afterCall found⟩
  | .error (some quote) => .error ⟨quote.column, .openQuote quote.mark⟩
  | .error none => .error ⟨opening, .openCall⟩

/-- Read a text as an expression. -/
def ofText (text : String) : Except ExpressionError Expression :=
  match text.toList with
  | [] => .error ⟨1, .empty⟩
  | first :: later =>
    if first.isAlpha then
      let name := first :: later.takeWhile Char.isAlphanum
      match later.dropWhile Char.isAlphanum with
      | [] => .ok ⟨String.ofList name, none⟩
      | c :: cs =>
        if c = callOpen then
          (readCall (name.length + 1) cs).map fun body =>
            ⟨String.ofList name, some (String.ofList body)⟩
        else .error ⟨name.length + 1, .afterName c (String.ofList name)⟩
    else .error ⟨1, .noName first⟩

end Expression

end FormatExpr
