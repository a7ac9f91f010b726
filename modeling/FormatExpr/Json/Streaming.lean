import FormatExpr.Json.Draft
import FormatExpr.Json.Library
import FormatExpr.Json.Text

/-!
# The streaming library

A library that reads a text from left to right: the first problem of the text decides the error, be
it a fault of the text or a value of an unexpected kind. A number of containers may be open inside
one another where a value is asked for; what is passed over may nest to any depth.
-/

namespace FormatExpr.Json

variable {ρ α : Type}

/-! ### Drafts -/

/-- The error for a draft of the wrong kind. Numbers, strings and words are looked at whole before
they are refused, lists and maps are refused where they open. -/
def Draft.mismatch : Draft → ReadError ρ
  | .fault => .notJson
  | .number none => .notJson
  | .string none => .notJson
  | _ => .wrongShape

/-- Try the value of a draft. The whole draft must be sound before its kind counts. -/
def Draft.attempt (d : Draft) (room : Nat) (trial : Value → Option α) : Except (ReadError ρ) α :=
  match d.value? room with
  | none => .error .notJson
  | some v => ReadError.orWrongShape (trial v)

/-- Read a part of a record. The items of a list are tried one by one, each to its end before the
next. -/
def Reader.ofDraft (room : Nat) : {α : Type} → Reader α → Draft → Except (ReadError ρ) α
  | _, .string, .string (some s) => .ok s
  | _, .boolean, .boolean b => .ok b
  | _, .list trial, .list items =>
    match room with
    | 0 => .error .notJson
    | inner + 1 => items.mapM fun d => d.attempt inner trial
  | _, _, d => .error d.mismatch

/-! ### Records -/

namespace Record

variable {R : Record}

/-- Read one member of a map. A known key must be new; an unknown one is passed over with its
value. -/
def Seen.readMember (room : Nat) (seen : R.Seen) :
    Option String × Draft → Except (ReadError ρ) R.Seen
  | (none, _) => .error .notJson
  | (some name, d) =>
    match R.key? name with
    | some k =>
      if (seen k).isSome then .error .wrongShape
      else ((R.reader k).ofDraft room d).map (seen.put k)
    | none => if d.isSound then .ok seen else .error .notJson

/-- Read the items of a list as the parts with the given keys. There may be fewer items than keys,
but not more. -/
def Seen.readItems (room : Nat) : List R.Key → R.Seen → List Draft → Except (ReadError ρ) R.Seen
  | _, seen, [] => .ok seen
  | [], _, _ :: _ => .error .notJson
  | k :: ks, seen, d :: ds => do
    let part ← (R.reader k).ofDraft room d
    readItems room ks (seen.put k part) ds

/-- The record of the parts that have been read. -/
def Seen.finish (seen : R.Seen) : Except (ReadError ρ) R.Filled :=
  ReadError.orWrongShape seen.fill?

/-- Read a record. -/
def ofDraft (room : Nat) (R : Record) : Draft → Except (ReadError ρ) R.Filled
  | .map members =>
    match room with
    | 0 => .error .notJson
    | inner + 1 => do (← members.foldlM (Seen.readMember inner) (.start : R.Seen)).finish
  | .list items =>
    match room with
    | 0 => .error .notJson
    | inner + 1 => do (← Seen.readItems inner R.keys .start items).finish
  | d => .error d.mismatch

end Record

/-- Read a record and convert it. -/
def Draft.convert (d : Draft) (room : Nat) {R : Record} (f : R.Filled → Except ρ α) :
    Except (ReadError ρ) α := do
  let parts ← R.ofDraft room d
  (f parts).mapError .rejected

/-! ### Texts -/

/-- Read a whole text. What follows the value counts only once the value is accepted. -/
def readText (read : Draft → Except (ReadError ρ) α) (text : String) : Except (ReadError ρ) α :=
  match Draft.ofText text with
  | (d, trailing) => do
    let a ← read d
    if trailing then .error .notJson else .ok a

/-- The library that has room for a number of containers inside one another. -/
def Library.within (room : Nat) : Library where
  write v := String.ofList v.text
  readValue trial := readText fun d => d.attempt room trial
  readRecord _ convert := readText fun d => d.convert room convert

end FormatExpr.Json
