import FormatExpr.Json.Value

/-!
# Records

A record is a declaration: the parts that a value is made of, each with its name, with the reader
for it, and with the part that stands in if none is given. From the declaration alone a library
derives how the record is read, be it from a map of the parts by their names or from a list of them
in the order in which they are declared.
-/

namespace FormatExpr.Json

/-! ### Readers -/

/-- What a part of a record is read as. -/
inductive Reader : Type → Type 1 where
  | string : Reader String
  | boolean : Reader Bool
  /-- Each item of a list is held as a value, and then tried. -/
  | list {α : Type} (trial : Value → Option α) : Reader (List α)

/-- What is read from a value. Values of another kind are refused. -/
def Reader.ofValue? {α : Type} : Reader α → Value → Option α
  | .string, .string s => some s
  | .boolean, .boolean b => some b
  | .list trial, .list items => items.mapM trial
  | _, _ => none

/-! ### Declarations -/

/-- The declaration of a record. No two of its parts share a name. -/
structure Record where
  /-- What the parts are known by. -/
  Key : Type
  [decEq : DecidableEq Key]
  /-- The keys in the order in which they are declared. -/
  keys : List Key
  nodup : keys.Nodup
  complete : ∀ k, k ∈ keys
  name : Key → String
  name_injective : ∀ {k k'}, name k = name k' → k = k'
  Part : Key → Type
  reader : (k : Key) → Reader (Part k)
  /-- The part that stands in where none is given. -/
  fallback : (k : Key) → Option (Part k)

namespace Record

attribute [instance] Record.decEq

variable {R : Record}

/-- The parts that have been read so far. -/
abbrev Seen (R : Record) : Type :=
  (k : R.Key) → Option (R.Part k)

/-- A record that is read. -/
abbrev Filled (R : Record) : Type :=
  (k : R.Key) → R.Part k

/-- Nothing has been read. -/
def Seen.start : R.Seen :=
  fun _ => none

/-- One more part has been read. -/
def Seen.put (seen : R.Seen) (k : R.Key) (part : R.Part k) : R.Seen :=
  fun k' => if h : k' = k then some (h ▸ part) else seen k'

@[simp] theorem Seen.put_self (seen : R.Seen) (k : R.Key) (part : R.Part k) :
    seen.put k part k = some part := by
  simp [put]

theorem Seen.put_of_ne (seen : R.Seen) {k k' : R.Key} (h : k' ≠ k) (part : R.Part k) :
    seen.put k part k' = seen k' := by
  simp [put, h]

/-- The record of the parts that have been read, if every other part has another one that stands
in for it. -/
def Seen.fill? (seen : R.Seen) : Option R.Filled :=
  if h : ∀ k ∈ R.keys, ((seen k).or (R.fallback k)).isSome then
    some fun k => ((seen k).or (R.fallback k)).get (h k (R.complete k))
  else none

/-- The key that a name belongs to. -/
def key? (R : Record) (name : String) : Option R.Key :=
  R.keys.find? fun k => R.name k = name

end Record

end FormatExpr.Json
