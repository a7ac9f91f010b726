import FormatExpr.Parser
import FormatExpr.Registry.Declaration

/-!
# Sessions

A session holds four parsers in numbered slots. Steps replace, bind, copy and question them; each
step has an answer and the log events that it caused.
-/

namespace FormatExpr

/-- The number of a parser in a session. -/
abbrev Slot := Fin 4

/-- The parsers of a session by slot. -/
structure Session where
  parsers : Vector (Parser Table) 4

/-- What is done with the parser of a slot. -/
inductive Action where
  /-- Put a new parser without a table into the slot. -/
  | new
  /-- Put a new parser with this table into the slot. -/
  | ofRegistry (table : Table)
  | load (table : Table)
  /-- Bind the present table, or an empty one, with this one on top. -/
  | layer (table : Table)
  /-- Copy the parser to another slot. -/
  | clone (target : Slot)
  | isLoaded
  | parse (text : String)
  | counts
  | hasProperty (name : String)
  | hasMethod (name : String) (argCount : Nat)
  | arity (name : String)

/-- An action and the slot it is applied to. -/
structure Step where
  slot : Slot
  action : Action

/-- What a step answers. The questions to a table have no answer where none is bound. -/
inductive Answer where
  | done
  | loaded (b : Bool)
  | parsed (result : Except FormatError Format)
  | counts (propertiesAndMethods : Option (Nat × Nat))
  | known (b : Option Bool)
  | arity (a : Option Arity)

namespace Session

/-- Four parsers without a table. -/
def new : Session := ⟨Vector.replicate 4 Parser.new⟩

/-- The parser in a slot. -/
def parser (s : Session) (slot : Slot) : Parser Table := s.parsers[slot]

/-- Put a parser into a slot. -/
def put (s : Session) (slot : Slot) (p : Parser Table) : Session :=
  ⟨s.parsers.set slot p⟩

@[simp] theorem parser_new (slot : Slot) : new.parser slot = Parser.new := by
  simp [new, parser]

@[simp] theorem parser_put_self (s : Session) (slot : Slot) (p : Parser Table) :
    (s.put slot p).parser slot = p := by
  simp [put, parser]

theorem parser_put_of_ne (s : Session) {slot other : Slot} (p : Parser Table)
    (h : slot ≠ other) : (s.put slot p).parser other = s.parser other := by
  have : slot.val ≠ other.val := fun hv => h (Fin.ext hv)
  simp [put, parser, this]

/-- Take one step: the session after it, its answer, and the events it logs. -/
def step (s : Session) (t : Step) : Session × Answer × List Event :=
  let p := s.parser t.slot
  let bind := fun (loaded : Parser Table × Event) => (s.put t.slot loaded.1, .done, [loaded.2])
  match t.action with
  | .new => (s.put t.slot .new, .done, [])
  | .ofRegistry table => bind (Parser.ofRegistry table)
  | .load table => bind (p.load table)
  | .layer table => bind (p.load ((p.registry?.getD ∅).extend table))
  | .clone target => (s.put target p, .done, [])
  | .isLoaded => (s, .loaded p.isLoaded, [])
  | .parse text =>
    let (result, event) := p.parseLogged text
    (s, .parsed result, [event])
  | .counts => (s, .counts (p.registry?.map fun t => (t.propertyCount, t.methodCount)), [])
  | .hasProperty name => (s, .known (p.registry?.map (Registry.hasProperty · name)), [])
  | .hasMethod name argCount =>
    (s, .known (p.registry?.map (Registry.hasMethod · name argCount)), [])
  | .arity name => (s, .arity (p.registry?.bind (·.arity? name)), [])

/-- Take steps in order: the session after them, and the answer and events of each. -/
def run (s : Session) : List Step → Session × List (Answer × List Event)
  | [] => (s, [])
  | t :: ts =>
    let (next, answer, events) := s.step t
    let (last, answers) := next.run ts
    (last, (answer, events) :: answers)

end Session

end FormatExpr
