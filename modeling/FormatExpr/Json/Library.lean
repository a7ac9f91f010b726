import FormatExpr.Json.Record

/-!
# JSON libraries

What is asked of a library for JSON: it writes values, it reads a text as a value that is then
tried, and it reads a text as a record that is then converted. How this is done is up to the
library; `Json.Library.within` in `FormatExpr.Json.Streaming` is one of them.
-/

namespace FormatExpr.Json

/-- Why nothing is read from a text. A record may be rejected for a reason of its own. -/
inductive ReadError (ρ : Type) where
  /-- The text is not JSON. -/
  | notJson
  /-- A JSON value is of the wrong kind, or is missing, or is given twice. -/
  | wrongShape
  | rejected (reason : ρ)
  deriving DecidableEq, Repr

/-- What was tried is of the wrong kind if nothing came of it. -/
def ReadError.orWrongShape {ρ α : Type} : Option α → Except (ReadError ρ) α
  | some a => .ok a
  | none => .error .wrongShape

/-- A library that writes and reads JSON. -/
structure Library where
  /-- The text of a value. -/
  write : Value → String
  /-- Read a value and try it. -/
  readValue : {ρ α : Type} → (trial : Value → Option α) → String → Except (ReadError ρ) α
  /-- Read a record and convert it. -/
  readRecord : {ρ α : Type} → (R : Record) → (convert : R.Filled → Except ρ α) → String →
    Except (ReadError ρ) α

end FormatExpr.Json
