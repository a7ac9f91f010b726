import FormatExpr.Registry.Table

/-!
# Declarations

A table is built from declarations in order. A declaration may lay a whole table over what has
been declared before, and that table is built from declarations in its turn.
-/

namespace FormatExpr

/-- One step in the building of a table. -/
inductive Declaration where
  | property (name : String)
  | properties (names : List String)
  | method (name : String) (arity : Arity)
  /-- Lay the table of these declarations on top. -/
  | extend (layer : List Declaration)
  deriving Repr

namespace Table

mutual

/-- Add what a declaration says. -/
def declare (t : Table) : Declaration → Table
  | .property name => t.property name
  | .properties names => names.foldl property t
  | .method name arity => t.method name arity
  | .extend layer => t.extend (declareAll ∅ layer)

/-- Add what several declarations say, one after the other. -/
def declareAll (t : Table) : List Declaration → Table
  | [] => t
  | d :: ds => declareAll (t.declare d) ds

end

/-- The table built from declarations alone. -/
def ofDeclarations (ds : List Declaration) : Table :=
  declareAll ∅ ds

end Table

end FormatExpr
