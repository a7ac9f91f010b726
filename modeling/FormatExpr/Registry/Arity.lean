/-!
# Arities

How many arguments a method takes.
-/

namespace FormatExpr

/-- The least and the greatest count of arguments; without a greatest count any number above the
least will do. -/
structure Arity where
  min : Nat
  max : Option Nat
  deriving DecidableEq, Repr

namespace Arity

/-- Exactly `count` arguments. -/
def exact (count : Nat) : Arity := ⟨count, some count⟩

/-- From `min` to `max` arguments. A `max` below `min` is raised to it. -/
def range (min max : Nat) : Arity := ⟨min, some (Nat.max max min)⟩

/-- At least `min` arguments. -/
def atLeast (min : Nat) : Arity := ⟨min, none⟩

/-- The arity admits `argCount` arguments. A method without arguments also takes one, since a call
with nothing between its parentheses has one argument. -/
def accepts (a : Arity) (argCount : Nat) : Bool :=
  match a.max with
  | some 0 => argCount ≤ 1
  | some max => a.min ≤ argCount && argCount ≤ max
  | none => a.min ≤ argCount

end Arity

end FormatExpr
