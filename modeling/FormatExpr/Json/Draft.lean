import FormatExpr.Json.Token
import FormatExpr.Json.Value

/-!
# Drafts of JSON values

A draft is a JSON text read as far as it is sound. Reading never fails: a fault stands in the
place where the text stops being JSON, and everything after it is left out. Whoever walks a draft
from left to right therefore meets the problems of a text in the order in which they are written,
be they faults of the text or values of an unexpected kind.

A list that is not closed ends with a fault. A map that is not closed ends with a member whose
value is a fault.

A draft may nest to any depth, and a part that nobody asks for is passed over whatever its depth.
The value of a draft is limited: a container that is opened too deep inside others counts as a
fault of the text.
-/

namespace FormatExpr.Json

/-- A JSON value as far as its text is sound. Numbers and strings may be sound without having a
value; the key of a member is a string. -/
inductive Draft where
  | null
  | boolean (b : Bool)
  | number (n : Option Number)
  | string (s : Option String)
  | list (items : List Draft)
  | map (members : List (Option String × Draft))
  | fault
  deriving Repr, Inhabited

namespace Draft

/-! ### Reading tokens -/

/-- A container that is being read: the parts before the one that is read now, last part first,
and the key of that one in a map. -/
inductive Frame where
  | list (before : List Draft)
  | map (before : List (Option String × Draft)) (key : Option String)

/-- The container whose last part is the given one. -/
def Frame.close : Frame → Draft → Draft
  | .list before, d => .list (d :: before).reverse
  | .map before key, d => .map ((key, d) :: before).reverse

/-- The draft of a text that has a fault inside all these containers, innermost first. -/
def abandon (frames : List Frame) : Draft :=
  frames.foldl (fun d frame => frame.close d) fault

mutual

/-- Read a value inside the given containers, and what follows up to the end of the outermost. -/
def readValue (frames : List Frame) : List Token → Draft × List Token
  | .null :: ts => resume frames null ts
  | .boolean b :: ts => resume frames (boolean b) ts
  | .number n :: ts => resume frames (number n) ts
  | .string s :: ts => resume frames (string s) ts
  | .openList :: .closeList :: ts => resume frames (list []) ts
  | .openList :: ts => readValue (.list [] :: frames) ts
  | .openMap :: .closeMap :: ts => resume frames (map []) ts
  | .openMap :: .string key :: .colon :: ts => readValue (.map [] key :: frames) ts
  | .openMap :: .string key :: _ => (abandon (.map [] key :: frames), [])
  | .openMap :: _ => (abandon (.map [] none :: frames), [])
  | _ => (abandon frames, [])

/-- Go on after a value inside the given containers. -/
def resume : List Frame → Draft → List Token → Draft × List Token
  | [], d, ts => (d, ts)
  | .list before :: frames, d, .comma :: ts => readValue (.list (d :: before) :: frames) ts
  | .list before :: frames, d, .closeList :: ts => resume frames (Frame.close (.list before) d) ts
  | .list before :: frames, d, _ => (abandon (.list (d :: before) :: frames), [])
  | .map before key :: frames, d, .comma :: .string next :: .colon :: ts =>
    readValue (.map ((key, d) :: before) next :: frames) ts
  | .map before key :: frames, d, .comma :: .string next :: _ =>
    (abandon (.map ((key, d) :: before) next :: frames), [])
  | .map before key :: frames, d, .closeMap :: ts =>
    resume frames (Frame.close (.map before key) d) ts
  | .map before key :: frames, d, _ => (abandon (.map ((key, d) :: before) none :: frames), [])

end

/-- The draft of a text, and whether anything but white space follows the value. -/
def ofText (text : String) : Draft × Bool :=
  let (d, rest) := readValue [] (Token.readAll text.toList)
  (d, !rest.isEmpty)

/-! ### Soundness -/

mutual

/-- The draft holds no fault, so that it may be passed over. -/
def isSound : Draft → Bool
  | list items => areSound items
  | map members => areSoundMembers members
  | fault => false
  | _ => true

/-- No item holds a fault. -/
def areSound : List Draft → Bool
  | [] => true
  | d :: ds => d.isSound && areSound ds

/-- No member holds a fault. -/
def areSoundMembers : List (Option String × Draft) → Bool
  | [] => true
  | (_, d) :: members => d.isSound && areSoundMembers members

end

/-! ### Values -/

/-- How many containers may be open inside one another where a JSON text is read. -/
def depthLimit : Nat := 127

mutual

/-- The value of a draft, unless it holds a fault or a part without a value, or nests more than
`room` containers inside one another. -/
def value? (room : Nat) : Draft → Option Value
  | null => some .null
  | boolean b => some (.boolean b)
  | number n => n.map .number
  | string s => s.map .string
  | list items =>
    match room with
    | 0 => none
    | inner + 1 => (values? inner items).map .list
  | map members =>
    match room with
    | 0 => none
    | inner + 1 => (memberValues? inner members).map .map
  | fault => none

/-- The values of several drafts. -/
def values? (room : Nat) : List Draft → Option (List Value)
  | [] => some []
  | d :: ds => do
    let v ← d.value? room
    let vs ← values? room ds
    some (v :: vs)

/-- The values of the members of a map. -/
def memberValues? (room : Nat) : List (Option String × Draft) → Option (List (String × Value))
  | [] => some []
  | (key, d) :: members => do
    let key ← key
    let v ← d.value? room
    let vs ← memberValues? room members
    some ((key, v) :: vs)

end

end Draft

end FormatExpr.Json
