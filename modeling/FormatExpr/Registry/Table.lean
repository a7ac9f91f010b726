import FormatExpr.Registry.Arity
import FormatExpr.Registry.Query
import Std.Data.ExtHashMap
import Std.Data.ExtHashSet

/-!
# Tables of capabilities

A table holds property names and method arities. Tables can be layered: properties add up, and
an arity of the upper table hides the one below it. Tables are equal when they hold the same
entries, so `extend_assoc`, `extend_empty`, `empty_extend` and `extend_self` are equations.
-/

namespace FormatExpr

/-- Property names, and an arity for each method name. -/
@[ext] structure Table where
  properties : Std.ExtHashSet String
  methods : Std.ExtHashMap String Arity

namespace Table

/-- The table without entries. -/
def empty : Table := ⟨∅, ∅⟩

instance : EmptyCollection Table := ⟨empty⟩

instance : Inhabited Table := ⟨empty⟩

/-! ### Adding entries -/

/-- Add a property. -/
def property (t : Table) (name : String) : Table :=
  { t with properties := t.properties.insert name }

/-- Add a method; an earlier arity of that name is replaced. -/
def method (t : Table) (name : String) (arity : Arity) : Table :=
  { t with methods := t.methods.insert name arity }

/-- Lay the table `upper` over this one. -/
def extend (t upper : Table) : Table :=
  ⟨t.properties ∪ upper.properties, t.methods ∪ upper.methods⟩

/-! ### Questions -/

/-- The table holds the property. -/
def containsProperty (t : Table) (name : String) : Bool :=
  t.properties.contains name

/-- The arity of a method. -/
def arity? (t : Table) (name : String) : Option Arity :=
  t.methods[name]?

/-- How many properties there are. -/
def propertyCount (t : Table) : Nat := t.properties.size

/-- How many methods there are. -/
def methodCount (t : Table) : Nat := t.methods.size

/-- A table answers for the methods whose arity accepts the count of arguments. -/
instance : Registry Table where
  answer t
    | .property name => t.containsProperty name
    | .method name argCount => (t.arity? name).any (·.accepts argCount)

/-! ### Laws of layering -/

@[simp] theorem properties_empty : (∅ : Table).properties = ∅ := rfl

@[simp] theorem methods_empty : (∅ : Table).methods = ∅ := rfl

@[simp] theorem containsProperty_extend (t upper : Table) (name : String) :
    (t.extend upper).containsProperty name =
      (t.containsProperty name || upper.containsProperty name) := by
  simp [extend, containsProperty]

@[simp] theorem containsProperty_empty (name : String) :
    (∅ : Table).containsProperty name = false := by
  simp [containsProperty]

@[simp] theorem arity?_extend (t upper : Table) (name : String) :
    (t.extend upper).arity? name = (upper.arity? name).or (t.arity? name) := by
  simp [extend, arity?, Std.ExtHashMap.getElem?_union]

@[simp] theorem arity?_empty (name : String) : (∅ : Table).arity? name = none := by
  simp [arity?]

/-- Tables that hold the same properties and the same arities are equal. -/
theorem ext_of_answers {t u : Table}
    (hp : ∀ name, t.containsProperty name = u.containsProperty name)
    (hm : ∀ name, t.arity? name = u.arity? name) : t = u := by
  ext1
  · exact Std.ExtHashSet.ext_contains hp
  · exact Std.ExtHashMap.ext_getElem? hm

theorem extend_assoc (a b c : Table) : (a.extend b).extend c = a.extend (b.extend c) :=
  ext_of_answers (by simp [Bool.or_assoc]) (by simp [Option.or_assoc])

@[simp] theorem extend_empty (t : Table) : t.extend ∅ = t :=
  ext_of_answers (by simp) (by simp)

@[simp] theorem empty_extend (t : Table) : (∅ : Table).extend t = t :=
  ext_of_answers (by simp) (by simp)

@[simp] theorem extend_self (t : Table) : t.extend t = t :=
  ext_of_answers (by simp) (by simp)

end Table

end FormatExpr
