import FormatExpr.Parser
import FormatExpr.Proofs.FormatReading

/-!
# What a parser asks its registry

A parser reads a text before it asks anything, and then it asks one question, which the text alone
decides. Its result depends on the registry through the answer to this question only
(`parseAsking_of_error`, `parseAsking_of_ok`).
-/

namespace FormatExpr

namespace Parser

variable {ρ : Type} [Registry ρ] {p : Parser ρ} {text : String}

lemma parseAsking_of_none (h : p.registry? = none) (text : String) :
    p.parseAsking text = (.error .notLoaded, []) := by
  rw [parseAsking, parseM, h]
  rfl

lemma parseAsking_of_error {registry : ρ} {e : FormatError} (h : p.registry? = some registry)
    (htext : Format.ofText text = .error e) : p.parseAsking text = (.error e, []) := by
  rw [parseAsking, parseM, h, htext]
  rfl

lemma parseAsking_of_ok {registry : ρ} {f : Format} (h : p.registry? = some registry)
    (htext : Format.ofText text = .ok f) :
    p.parseAsking text
      = (if Registry.answer registry f.query then .ok f else .error f.query.refusal,
        [f.query]) := by
  rw [parseAsking, parseM, h, htext]
  change StateT.run (if Registry.answer registry f.query then _ else _) _ = _
  split_ifs <;> rfl

/-- Keeping track of the questions changes no result. -/
lemma parse_eq_fst_parseAsking (p : Parser ρ) (text : String) :
    p.parse text = (p.parseAsking text).1 := by
  cases hp : p.registry? with
  | none =>
    rw [parseAsking_of_none hp, parse, parseM, hp]
    rfl
  | some registry =>
    cases htext : Format.ofText text with
    | error e =>
      rw [parseAsking_of_error hp htext, parse, parseM, hp, htext]
      rfl
    | ok f =>
      rw [parseAsking_of_ok hp htext, parse, parseM, hp, htext]
      rfl

lemma parse_of_error {registry : ρ} {e : FormatError} (h : p.registry? = some registry)
    (htext : Format.ofText text = .error e) : p.parse text = .error e := by
  rw [parse_eq_fst_parseAsking, parseAsking_of_error h htext]

lemma parse_of_ok {registry : ρ} {f : Format} (h : p.registry? = some registry)
    (htext : Format.ofText text = .ok f) :
    p.parse text
      = if Registry.answer registry f.query then .ok f else .error f.query.refusal := by
  rw [parse_eq_fst_parseAsking, parseAsking_of_ok h htext]

/-- Under a registry that accepts everything the text alone decides. -/
lemma parse_ofRegistry {registry : ρ} (hall : ∀ q, Registry.answer registry q = true)
    (text : String) : (ofRegistry registry).1.parse text = Format.ofText text := by
  have hp : Parser.registry? (ofRegistry registry).1 = some registry := rfl
  cases htext : Format.ofText text with
  | error e => rw [parse_of_error hp htext]
  | ok f => rw [parse_of_ok hp htext, if_pos (hall f.query)]

/-- The text decides which question is asked, and its answer decides the result. A parser without a
registry fails whatever the text is. With a registry, a text that is no expression or has no
readable arguments gives the same error for every registry, and nothing is asked. Any other text
has a format, which a parser gives whose registry accepts everything: then the one question is for
the name of the property, or for the name of the method and the number of its arguments, which is
never zero, and the refusal names the same. So two registries that agree on this question give the
same result. -/
theorem parseAsking_asks_once {σ : Type} [Registry σ] (p : Parser ρ) (q : Parser σ)
    (text : String) :
    p.parse text = (p.parseAsking text).1 ∧
    (p.registry? = none → p.parseAsking text = (.error .notLoaded, [])) ∧
    (∀ registry, p.registry? = some registry →
      (∀ cause, Expression.ofText text = .error cause →
        p.parseAsking text = (.error (.ofExpression cause), []) ∧
          (FormatError.ofExpression cause).kind = .malformedText) ∧
      (∀ name body cause, Expression.ofText text = .ok ⟨name, some body⟩ →
        Argument.literals body = .error cause →
        p.parseAsking text = (.error (.invalidArguments text cause), []) ∧
          (FormatError.invalidArguments text cause).kind = .malformedText) ∧
      ((∀ cause, Expression.ofText text ≠ .error cause) →
        (∀ name body cause, Expression.ofText text = .ok ⟨name, some body⟩ →
          Argument.literals body ≠ .error cause) →
        ∃ f, (ofRegistry fun _ : Query => true).1.parse text = .ok f ∧
          ((∃ name, f = .property name ∧
            p.parseAsking text = (if Registry.hasProperty registry name then .ok f
              else .error (.unknownProperty name), [.property name])) ∨
          (∃ name arguments, f = .method name arguments ∧ 0 < arguments.length ∧
            p.parseAsking text = (if Registry.hasMethod registry name arguments.length then .ok f
              else .error (.unknownMethod name arguments.length),
                [.method name arguments.length]))))) ∧
    ∀ registry other, p.registry? = some registry → q.registry? = some other →
      (∀ f, (ofRegistry fun _ : Query => true).1.parse text = .ok f →
        Registry.answer registry f.query = Registry.answer other f.query) →
      p.parseAsking text = q.parseAsking text := by
  have hall : (ofRegistry fun _ : Query => true).1.parse text = Format.ofText text :=
    parse_ofRegistry (fun _ => rfl) text
  rw [hall]
  refine ⟨parse_eq_fst_parseAsking p text, ?_, ?_, ?_⟩
  · intro h
    exact parseAsking_of_none h text
  · intro registry h
    refine ⟨?_, ?_, ?_⟩
    · intro cause he
      exact ⟨parseAsking_of_error h (Format.ofText_of_expression_error he), rfl⟩
    · intro name body cause he hbody
      exact ⟨parseAsking_of_error h (Format.ofText_of_literals_error he hbody), rfl⟩
    · intro he hbody
      obtain ⟨f, hf⟩ := Format.exists_ofText_eq_ok he hbody
      refine ⟨f, hf, ?_⟩
      have hasking := parseAsking_of_ok h hf
      cases f with
      | property name => exact .inl ⟨name, rfl, hasking⟩
      | method name arguments =>
        exact .inr ⟨name, arguments, rfl, Format.length_arguments_pos hf, hasking⟩
  · intro registry other hp hq hagree
    cases htext : Format.ofText text with
    | error e => rw [parseAsking_of_error hp htext, parseAsking_of_error hq htext]
    | ok f => rw [parseAsking_of_ok hp htext, parseAsking_of_ok hq htext, hagree f htext]

end Parser

end FormatExpr
