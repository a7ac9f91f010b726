import FormatExpr.Proofs.Asking
import FormatExpr.Registry.Table

/-!
# Parsing over layered tables

A layered table knows the properties of both tables, and answers for a method as the upper table
does if that has an arity for it, and else as the lower one does (`Table.hasProperty_extend`,
`Table.hasMethod_extend`). Parsing puts one question to it. So what is parsed over a layered table
can be told from what is parsed over the two tables (`Parser.parse_extend`).
-/

namespace FormatExpr

open Registry

namespace Table

/-! ### Questions to a table -/

lemma hasProperty_eq (t : Table) (name : String) : hasProperty t name = t.containsProperty name :=
  rfl

lemma hasMethod_eq (t : Table) (name : String) (argCount : Nat) :
    hasMethod t name argCount = (t.arity? name).any (·.accepts argCount) :=
  rfl

lemma hasProperty_extend (t upper : Table) (name : String) :
    hasProperty (t.extend upper) name = (hasProperty t name || hasProperty upper name) :=
  containsProperty_extend t upper name

/-- The arity of the upper table counts, whether or not it accepts. -/
lemma hasMethod_extend (t upper : Table) (name : String) (argCount : Nat) :
    hasMethod (t.extend upper) name argCount
      = if (upper.arity? name).isSome then hasMethod upper name argCount
        else hasMethod t name argCount := by
  rw [hasMethod_eq, hasMethod_eq, hasMethod_eq, arity?_extend]
  cases upper.arity? name <;> rfl

end Table

namespace Parser

variable {ρ : Type} [Registry ρ] {base upper : Table} {text name : String}

/-! ### Parsing by the kind of a text -/

lemma parse_malformed {e : FormatError} (registry : ρ) (h : Format.ofText text = .error e) :
    (ofRegistry registry).1.parse text = .error e :=
  parse_of_error rfl h

lemma parse_property (registry : ρ) (h : Expression.ofText text = .ok ⟨name, none⟩) :
    (ofRegistry registry).1.parse text
      = if hasProperty registry name then .ok (.property name)
        else .error (.unknownProperty name) :=
  parse_of_ok rfl (Format.ofText_eq_property_iff.2 h)

lemma parse_method {body : String} {arguments : List Literal} (registry : ρ)
    (h : Expression.ofText text = .ok ⟨name, some body⟩)
    (hbody : Argument.literals body = .ok arguments) :
    (ofRegistry registry).1.parse text
      = if hasMethod registry name arguments.length then .ok (.method name arguments)
        else .error (.unknownMethod name arguments.length) :=
  parse_of_ok rfl (Format.ofText_eq_method_iff.2 ⟨body, h, hbody⟩)

/-! ### Parsing over a layered table -/

/-- A property is parsed over a layered table if it is over one of the two tables. -/
lemma parse_extend_property (h : Expression.ofText text = .ok ⟨name, none⟩) (f : Format) :
    (ofRegistry (base.extend upper)).1.parse text = .ok f ↔
      (ofRegistry base).1.parse text = .ok f ∨ (ofRegistry upper).1.parse text = .ok f := by
  simp only [parse_property _ h, Table.hasProperty_extend]
  cases hasProperty base name <;> cases hasProperty upper name <;> simp

/-- A call is parsed over a layered table as over the table that its arity comes from. -/
lemma parse_extend_call {body : String} (h : Expression.ofText text = .ok ⟨name, some body⟩) :
    (ofRegistry (base.extend upper)).1.parse text
      = if (upper.arity? name).isSome then (ofRegistry upper).1.parse text
        else (ofRegistry base).1.parse text := by
  cases hbody : Argument.literals body with
  | error cause =>
    simp only [parse_malformed _ (Format.ofText_of_literals_error h hbody), ite_self]
  | ok arguments =>
    simp only [parse_method _ h hbody, Table.hasMethod_extend]
    cases (upper.arity? name).isSome <;> rfl

/-- What a text is parsed as over a layered table. A malformed text gives the same error over all
three tables. A name gives what it gives over one of the two tables that knows the property, and it
is unknown if none of them does. A call gives what it gives over the upper table if that has an
arity for the method, and else what it gives over the lower one. So a call is refused that the upper
arity does not accept, whatever the lower table says of it. -/
theorem parse_extend (base upper : Table) (text : String) :
    (∀ cause, Expression.ofText text = .error cause → ∀ t ∈ [base, upper, base.extend upper],
      (ofRegistry t).1.parse text = .error (.ofExpression cause)) ∧
    (∀ name body cause, Expression.ofText text = .ok ⟨name, some body⟩ →
      Argument.literals body = .error cause → ∀ t ∈ [base, upper, base.extend upper],
        (ofRegistry t).1.parse text = .error (.invalidArguments text cause)) ∧
    (∀ name, Expression.ofText text = .ok ⟨name, none⟩ →
      (∀ f, (ofRegistry (base.extend upper)).1.parse text = .ok f ↔
        (ofRegistry base).1.parse text = .ok f ∨ (ofRegistry upper).1.parse text = .ok f) ∧
      (ofRegistry (base.extend upper)).1.parse text
        = if hasProperty base name || hasProperty upper name then .ok (.property name)
          else .error (.unknownProperty name)) ∧
    (∀ name body, Expression.ofText text = .ok ⟨name, some body⟩ →
      (ofRegistry (base.extend upper)).1.parse text
        = if (upper.arity? name).isSome then (ofRegistry upper).1.parse text
          else (ofRegistry base).1.parse text) ∧
    ∀ name body arguments a, Expression.ofText text = .ok ⟨name, some body⟩ →
      Argument.literals body = .ok arguments → upper.arity? name = some a →
      a.accepts arguments.length = false →
        (ofRegistry (base.extend upper)).1.parse text
          = .error (.unknownMethod name arguments.length) := by
  refine ⟨?_, ?_, ?_, ?_, ?_⟩
  · intro cause h t _
    exact parse_malformed t (Format.ofText_of_expression_error h)
  · intro name body cause h hbody t _
    exact parse_malformed t (Format.ofText_of_literals_error h hbody)
  · intro name h
    refine ⟨parse_extend_property h, ?_⟩
    rw [parse_property _ h, Table.hasProperty_extend]
  · intro name body h
    exact parse_extend_call h
  · intro name body arguments a h hbody ha hrefused
    have hunknown : hasMethod upper name arguments.length = false := by
      rw [Table.hasMethod_eq, ha, Option.any_some, hrefused]
    rw [parse_extend_call h, ha, Option.isSome_some, if_pos rfl, parse_method upper h hbody,
      hunknown]
    rfl

/-- An arity of one on top of one that goes up to two hides it, and the property below stays. -/
theorem parse_extend_hidden :
    (ofRegistry (Table.method (.property ∅ "word") "pick" (.range 0 2))).1.parse "pick(1,[])"
      = .ok (.method "pick" [.number (.integer 1), .list []]) ∧
    (ofRegistry ((Table.method (.property ∅ "word") "pick" (.range 0 2)).extend
        (.method ∅ "pick" (.exact 1)))).1.parse "pick(1,[])" = .error (.unknownMethod "pick" 2) ∧
    (ofRegistry ((Table.method (.property ∅ "word") "pick" (.range 0 2)).extend
        (.method ∅ "pick" (.exact 1)))).1.parse "word" = .ok (.property "word") := by
  have hcall : Expression.ofText "pick(1,[])" = .ok ⟨"pick", some "1,[]"⟩ := rfl
  have hbody : Argument.literals "1,[]" = .ok [.number (.integer 1), .list []] := by cbv
  have hname : Expression.ofText "word" = .ok ⟨"word", none⟩ := rfl
  have harity : ∀ (t : Table) (a : Arity), (t.method "pick" a).arity? "pick" = some a := by
    simp [Table.arity?, Table.method]
  refine ⟨?_, ?_, ?_⟩
  · rw [parse_method _ hcall hbody, Table.hasMethod_eq, harity]
    rfl
  · exact (parse_extend _ _ _).2.2.2.2 "pick" "1,[]" _ (.exact 1) hcall hbody (harity _ _) rfl
  · have hword : ∀ a,
        (Table.method (.property ∅ "word") "pick" a).containsProperty "word" = true := by
      simp [Table.containsProperty, Table.method, Table.property]
    rw [((parse_extend _ _ _).2.2.1 "word" hname).2, Table.hasProperty_eq, hword]
    rfl

end Parser

end FormatExpr
