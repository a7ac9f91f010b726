import FormatExpr.Binary64.Nearest

/-!
# JSON values

The values that formats and literals are stored as. A number keeps its kind: one written without
point and exponent is an integer if it fits, every other one is a floating point number.
-/

namespace FormatExpr.Json

/-- A number of a JSON value: an integer of 64 bits or a floating point number. -/
inductive Number where
  | integer (i : Int64)
  | float (x : Binary64)
  deriving DecidableEq, Repr

/-- A JSON value; the members of a map stand in the order they are written in. -/
inductive Value where
  | null
  | boolean (b : Bool)
  | number (n : Number)
  | string (s : String)
  | list (items : List Value)
  | map (members : List (String × Value))
  deriving Repr, Inhabited

namespace Value

mutual

/-- The value that is left of a value once it is written: text has no numbers that are not finite,
and null stands in their place. -/
def written : Value → Value
  | null => null
  | boolean b => boolean b
  | number (.integer i) => number (.integer i)
  | number (.float x) => if x.isFinite then number (.float x) else null
  | string s => string s
  | list items => list (writtenItems items)
  | map members => map (writtenMembers members)

/-- What is left of several values. -/
def writtenItems : List Value → List Value
  | [] => []
  | v :: vs => v.written :: writtenItems vs

/-- What is left of several members. -/
def writtenMembers : List (String × Value) → List (String × Value)
  | [] => []
  | (key, v) :: members => (key, v.written) :: writtenMembers members

end

end Value

end FormatExpr.Json
