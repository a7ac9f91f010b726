import FormatExpr.Format
import FormatExpr.Json.Streaming

/-!
# Stored literals and formats

Literals and formats are stored as JSON. A literal is stored as the JSON value of its kind. It is
read back by trying the variants of literals one after the other on the value.

A format is stored as a map of its name, whether it is a property, and its arguments, and it is
declared as a record of these three parts. Whatever is read as such a record is checked before it
becomes a format.

Each of these is done with any JSON library. The program does it with one that reads a text from
left to right, and that has room for `Json.Draft.depthLimit` containers inside one another.
-/

namespace FormatExpr

/-! ### Errors -/

/-- Why values of the right kinds do not make up a format. -/
inductive Rejection where
  | invalidName (name : String)
  | propertyWithArguments (name : String) (argCount : Nat)
  deriving DecidableEq, Repr

/-- The rejection for a reader. -/
def Rejection.message : Rejection → String
  | invalidName name => s!"invalid format name '{name}'"
  | propertyWithArguments name argCount =>
    s!"property '{name}' cannot carry {argCount} argument(s)"

/-- Why nothing can be read from a stored text. -/
abbrev StoredError := Json.ReadError Rejection

/-! ### Literals -/

namespace Literal

mutual

/-- The JSON value that a literal is stored as. -/
def toJson : Literal → Json.Value
  | string s => .string s
  | number (.integer i) => .number (.integer i)
  | number (.float x) => .number (.float x)
  | boolean b => .boolean b
  | list items => .list (listToJson items)

/-- The JSON values that several literals are stored as. -/
def listToJson : List Literal → List Json.Value
  | [] => []
  | x :: xs => x.toJson :: listToJson xs

end

/-- The variants of literals. -/
inductive Variant where
  | string
  | integer
  | float
  | boolean
  | list
  deriving DecidableEq, Repr

/-- The variants in the order in which they are declared, which is the order in which they are
tried. -/
def Variant.declared : List Variant :=
  [string, integer, float, boolean, list]

/-- Take a value for a literal of the given variant. An integer may be taken for a floating point
number, which it widens to. A list is taken for the literals that are stored in its items, if there
is one in each of them. -/
def Variant.read (items : Option (List Literal)) : Variant → Json.Value → Option Literal
  | string, .string s => some (.string s)
  | integer, .number (.integer i) => some (.number (.integer i))
  | float, .number (.float x) => some (.number (.float x))
  | float, .number (.integer i) => some (.number (.float (.ofInt i.toInt)))
  | boolean, .boolean b => some (.boolean b)
  | list, .list _ => items.map .list
  | _, _ => none

/-- Take a value for a literal of the first variant that this can be done for. -/
def Variant.readFirst (items : Option (List Literal)) (v : Json.Value) : Option Literal :=
  declared.findSome? fun variant => variant.read items v

mutual

/-- The literal that is stored as a JSON value. -/
def ofJson? : Json.Value → Option Literal
  | .list vs => Variant.readFirst (listOfJson? vs) (.list vs)
  | v => Variant.readFirst none v

/-- The literals that are stored as several JSON values. -/
def listOfJson? : List Json.Value → Option (List Literal)
  | [] => some []
  | v :: vs => do
    let x ← ofJson? v
    let xs ← listOfJson? vs
    some (x :: xs)

end

/-- Read a literal from JSON text. -/
def ofJsonTextBy (library : Json.Library) (text : String) : Except StoredError Literal :=
  library.readValue ofJson? text

/-- Read a literal from JSON text with at most `room` containers inside one another. -/
def ofJsonTextWithin (room : Nat) (text : String) : Except StoredError Literal :=
  ofJsonTextBy (.within room) text

/-- Read a literal from JSON text. -/
def ofJsonText (text : String) : Except StoredError Literal :=
  ofJsonTextWithin Json.Draft.depthLimit text

end Literal

/-! ### Formats -/

namespace Format

/-- The JSON value that a format is stored as. -/
def toJson (f : Format) : Json.Value :=
  .map [("name", .string f.name), ("is_property", .boolean f.isProperty),
    ("arguments", .list (Literal.listToJson f.arguments))]

/-- The parts of a stored format. -/
inductive Part where
  | name
  | isProperty
  | arguments
  deriving DecidableEq, Repr

/-- A stored format is a record of a name, a flag and literals. There are no literals where none are
given. -/
def record : Json.Record where
  Key := Part
  keys := [.name, .isProperty, .arguments]
  nodup := by decide
  complete k := by cases k <;> decide
  name
    | .name => "name"
    | .isProperty => "is_property"
    | .arguments => "arguments"
  name_injective {k k'} := by cases k <;> cases k' <;> decide
  Part
    | .name => String
    | .isProperty => Bool
    | .arguments => List Literal
  reader
    | .name => .string
    | .isProperty => .boolean
    | .arguments => .list Literal.ofJson?
  fallback
    | .name => none
    | .isProperty => none
    | .arguments => some []

/-- The format of three stored values: the name must be an expression that consists of a name alone,
and a property has no arguments. -/
def check (name : String) (isProperty : Bool) (arguments : List Literal) :
    Except Rejection Format :=
  match Expression.ofText name with
  | .ok ⟨_, none⟩ =>
    if isProperty then
      if arguments.isEmpty then .ok (property name)
      else .error (.propertyWithArguments name arguments.length)
    else .ok (method name arguments)
  | _ => .error (.invalidName name)

/-- The format of a record. -/
def checkRecord (parts : record.Filled) : Except Rejection Format :=
  check (parts Part.name) (parts Part.isProperty) (parts Part.arguments)

/-- Read a format from JSON text. -/
def ofJsonTextBy (library : Json.Library) (text : String) : Except StoredError Format :=
  library.readRecord record checkRecord text

/-- Read a format from JSON text with at most `room` containers inside one another. -/
def ofJsonTextWithin (room : Nat) (text : String) : Except StoredError Format :=
  ofJsonTextBy (.within room) text

/-- Read a format from JSON text. -/
def ofJsonText (text : String) : Except StoredError Format :=
  ofJsonTextWithin Json.Draft.depthLimit text

/-- The JSON text that a format is stored as. -/
def toJsonTextBy (library : Json.Library) (f : Format) : String :=
  library.write f.toJson

/-- The JSON text that a format is stored as. -/
def toJsonText (f : Format) : String :=
  f.toJsonTextBy (.within Json.Draft.depthLimit)

end Format

end FormatExpr
