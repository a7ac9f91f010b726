import FormatExpr.Format

/-!
# Parsers

A parser is bound to a registry, or to none yet. It reads a text as a format and asks the registry
one question about it. Binding a registry and parsing a text each write one line to the log.
-/

namespace FormatExpr

/-! ### Log -/

/-- How much a log line matters; `trace` is the least. -/
inductive Level where
  | debug
  | trace
  deriving DecidableEq, Repr

/-- What a parser reports to the log. -/
inductive Event where
  /-- A registry was bound to a parser that had none. -/
  | loaded
  /-- A registry took the place of another one. -/
  | replaced
  | parsedProperty (text : String)
  | parsedMethod (text : String) (argCount : Nat)
  | rejected (text : String) (error : FormatError)
  deriving DecidableEq, Repr

namespace Event

/-- The level an event is logged at. -/
def level : Event → Level
  | parsedProperty _ => .trace
  | parsedMethod .. => .trace
  | _ => .debug

/-- The log line of an event. -/
def message : Event → String
  | loaded => "capability registry loaded"
  | replaced => "replacing loaded capability registry"
  | parsedProperty text => s!"parsed '{text}' as property"
  | parsedMethod text argCount => s!"parsed '{text}' as method with {argCount} argument(s)"
  | rejected text error => s!"rejected format '{text}': {error.message}"

/-- The event for the result of parsing a text. -/
def ofResult (text : String) : Except FormatError Format → Event
  | .ok (.property _) => parsedProperty text
  | .ok (.method _ arguments) => parsedMethod text arguments.length
  | .error e => rejected text e

end Event

/-! ### Parsers -/

/-- A parser and the registry it is bound to, if any. -/
structure Parser (ρ : Type) where
  registry? : Option ρ := none
  deriving Repr

namespace Parser

variable {ρ : Type}

/-- A parser without a registry. -/
def new : Parser ρ := ⟨none⟩

/-- The parser is bound to a registry. -/
def isLoaded (p : Parser ρ) : Bool := p.registry?.isSome

/-- Bind a registry in place of the earlier one. -/
def load (p : Parser ρ) (registry : ρ) : Parser ρ × Event :=
  (⟨some registry⟩, if p.isLoaded then .replaced else .loaded)

/-- A new parser bound to a registry. -/
def ofRegistry (registry : ρ) : Parser ρ × Event :=
  new.load registry

/-- Read a text as a format and let `ask` decide whether the registry offers it. The question is
put only for a well-formed text. -/
def parseM {m : Type → Type} [Monad m] (p : Parser ρ) (ask : ρ → Query → m Bool)
    (text : String) : m (Except FormatError Format) :=
  match p.registry? with
  | none => pure (.error .notLoaded)
  | some registry =>
    match Format.ofText text with
    | .error e => pure (.error e)
    | .ok f => do
      if ← ask registry f.query then pure (.ok f) else pure (.error f.query.refusal)

variable [Registry ρ]

/-- The format that a text stands for. -/
def parse (p : Parser ρ) (text : String) : Except FormatError Format :=
  Id.run (p.parseM (fun registry q => pure (Registry.answer registry q)) text)

/-- The format that a text stands for, and the questions put to the registry in their order. -/
def parseAsking (p : Parser ρ) (text : String) : Except FormatError Format × List Query :=
  let ask : ρ → Query → StateM (List Query) Bool := fun registry q =>
    modifyGet fun asked => (Registry.answer registry q, asked ++ [q])
  (p.parseM ask text).run []

/-- The format that a text stands for, and the event that is logged for it. -/
def parseLogged (p : Parser ρ) (text : String) : Except FormatError Format × Event :=
  let result := p.parse text
  (result, .ofResult text result)

end Parser

end FormatExpr
