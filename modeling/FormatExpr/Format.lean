import FormatExpr.Argument.Literals
import FormatExpr.Error

/-!
# Formats

A format refers to a property by its name, or calls a method with literal arguments. Its text is
an expression again; a call with the empty string as its only argument is written with nothing
between the parentheses, as such a call is read.
-/

namespace FormatExpr

/-- A reference to a property, or a call of a method. -/
inductive Format where
  | property (name : String)
  | method (name : String) (arguments : List Literal)
  deriving Repr

namespace Format

/-! ### Views -/

/-- The name of the property or method. -/
def name : Format → String
  | property name => name
  | method name _ => name

/-- The format refers to a property. -/
def isProperty : Format → Bool
  | property _ => true
  | method .. => false

/-- The arguments in the order of the call; a property has none. -/
def arguments : Format → List Literal
  | property _ => []
  | method _ arguments => arguments

/-- Equality of formats, with arguments compared as `Literal.numEq` does. -/
def numEq (f g : Format) : Bool :=
  f.name == g.name && f.isProperty == g.isProperty &&
    Literal.numEqList f.arguments g.arguments

/-! ### Text -/

/-- The argument text of a call. -/
def argumentText : List Literal → List Char
  | [.string ""] => []
  | arguments => Literal.textJoined arguments

/-- The text of a format. -/
def text : Format → List Char
  | property name => name.toList
  | method name arguments => name.toList ++ callOpen :: argumentText arguments ++ [callClose]

/-- The text of a format as a string. -/
def display (f : Format) : String :=
  String.ofList f.text

/-! ### Reading -/

/-- The format that an expression stands for, whatever a registry may say of it. -/
def ofText (text : String) : Except FormatError Format :=
  match Expression.ofText text with
  | .error e => .error (.ofExpression e)
  | .ok ⟨name, none⟩ => .ok (property name)
  | .ok ⟨name, some argumentText⟩ =>
    match Argument.literals argumentText with
    | .error cause => .error (.invalidArguments text cause)
    | .ok arguments => .ok (method name arguments)

/-- The question that decides whether a format is offered. -/
def query : Format → Query
  | property name => .property name
  | method name arguments => .method name arguments.length

end Format

end FormatExpr
