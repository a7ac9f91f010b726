/-!
# Registries

A registry knows which properties and methods a generator offers. It answers one kind of
question: is there such a property, or such a method that takes so many arguments?
-/

namespace FormatExpr

/-- A question to a registry. -/
inductive Query where
  | property (name : String)
  /-- Is there a method of this name that takes `argCount` arguments? A call without argument text
  counts as one argument, the empty string. -/
  | method (name : String) (argCount : Nat)
  deriving DecidableEq, Repr

/-- A type whose values answer questions about properties and methods. -/
class Registry (ρ : Type) where
  answer : ρ → Query → Bool

/-- Any predicate on questions is a registry. -/
instance : Registry (Query → Bool) := ⟨id⟩

namespace Registry

variable {ρ : Type} [Registry ρ]

/-- The registry knows the property. -/
def hasProperty (registry : ρ) (name : String) : Bool :=
  answer registry (.property name)

/-- The registry knows a method of this name that takes so many arguments. -/
def hasMethod (registry : ρ) (name : String) (argCount : Nat) : Bool :=
  answer registry (.method name argCount)

end Registry

end FormatExpr
