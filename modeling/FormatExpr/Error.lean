import FormatExpr.Argument.Error
import FormatExpr.Expression
import FormatExpr.Registry.Query

/-!
# Errors of format reading

Every way in which a text can fail to be a format, its kind and its message.
-/

namespace FormatExpr

/-- The broad kinds of errors. -/
inductive ErrorKind where
  /-- The text is malformed. -/
  | malformedText
  /-- The text is well formed and names something the registry does not offer. -/
  | unknownCapability
  /-- No registry was loaded. -/
  | usage
  deriving DecidableEq, Repr

/-- Why a text is not a format. -/
inductive FormatError where
  /-- The expression is malformed at a column. -/
  | malformed (column : Nat) (detail : String)
  /-- The argument text of the expression has no value. -/
  | invalidArguments (expression : String) (cause : ArgumentError)
  | unknownProperty (name : String)
  /-- There is no such method, or it does not take that many arguments. -/
  | unknownMethod (name : String) (argCount : Nat)
  | notLoaded
  deriving DecidableEq, Repr

namespace FormatError

/-- The error for a text that is not an expression. -/
def ofExpression (e : ExpressionError) : FormatError :=
  malformed e.column e.fault.detail

/-- The kind of an error. -/
def kind : FormatError → ErrorKind
  | malformed .. => .malformedText
  | invalidArguments .. => .malformedText
  | unknownProperty _ => .unknownCapability
  | unknownMethod .. => .unknownCapability
  | notLoaded => .usage

/-- The error for a reader. -/
def message : FormatError → String
  | malformed column detail => s!"Syntax error at column {column}: {detail}"
  | invalidArguments expression cause =>
    s!"Invalid arguments in '{expression}': {cause.message}"
  | unknownProperty name => s!"Unknown property '{name}'"
  | unknownMethod name argCount => s!"Unknown method '{name}' accepting {argCount} argument(s)"
  | notLoaded => "No capability registry loaded (call load() before parse())"

/-- The error of argument decoding behind this one. -/
def cause? : FormatError → Option ArgumentError
  | invalidArguments _ cause => some cause
  | _ => none

end FormatError

/-- The error for a question that a registry answers in the negative. -/
def Query.refusal : Query → FormatError
  | property name => .unknownProperty name
  | method name argCount => .unknownMethod name argCount

end FormatExpr
