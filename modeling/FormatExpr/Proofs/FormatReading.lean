import FormatExpr.Format
import FormatExpr.Proofs.Decoding
import FormatExpr.Proofs.ExpressionGrammar

/-!
# Reading formats

A text is read as a format in two parts, the expression and then its arguments, and fails with the
error of the part that fails. What is read has an identifier as its name, and a call has at least
one argument.
-/

namespace FormatExpr

namespace Format

variable {text : String}

/-- A text is read as a property exactly when it is read as a name alone. -/
lemma ofText_eq_property_iff {name : String} :
    ofText text = .ok (property name) ↔ Expression.ofText text = .ok ⟨name, none⟩ := by
  cases he : Expression.ofText text with
  | error cause => simp [ofText, he]
  | ok e =>
    obtain ⟨name', _ | body⟩ := e
    · simp [ofText, he]
    · cases hbody : Argument.literals body <;> simp [ofText, he, hbody]

/-- A text is read as a call exactly when it is read as a name with a body, and the body as the
arguments. -/
lemma ofText_eq_method_iff {name : String} {arguments : List Literal} :
    ofText text = .ok (method name arguments) ↔
      ∃ body, Expression.ofText text = .ok ⟨name, some body⟩ ∧
        Argument.literals body = .ok arguments := by
  cases he : Expression.ofText text with
  | error cause => simp [ofText, he]
  | ok e =>
    obtain ⟨name', _ | body⟩ := e
    · simp [ofText, he]
    · cases hbody : Argument.literals body <;> simp [ofText, he, hbody, and_assoc]

/-- A call is read if its expression and its argument text are. -/
lemma ofText_method_of_reads {name body : String} {arguments : List Literal}
    (he : Expression.ofText text = .ok ⟨name, some body⟩)
    (hbody : Argument.Reads 0 body.toList arguments) : ofText text = .ok (method name arguments) :=
  ofText_eq_method_iff.2 ⟨body, he, Argument.literalsFrom_eq_ok_iff.2 hbody⟩

/-- A name and an argument text between parentheses are read as a call. -/
lemma ofText_call {name body : String} {arguments : List Literal}
    (hname : isIdentifier name.toList = true) (hnested : Nested callOpen callClose body.toList)
    (hbody : Argument.Reads 0 body.toList arguments) :
    ofText (name ++ "(" ++ body ++ ")") = .ok (method name arguments) :=
  ofText_method_of_reads (Expression.ofText_eq_call_iff.2 ⟨rfl, hname, hnested⟩) hbody

lemma ofText_of_expression_error {cause : ExpressionError}
    (h : Expression.ofText text = .error cause) : ofText text = .error (.ofExpression cause) := by
  rw [ofText, h]

lemma ofText_of_literals_error {name body : String} {cause : ArgumentError}
    (he : Expression.ofText text = .ok ⟨name, some body⟩)
    (hbody : Argument.literals body = .error cause) :
    ofText text = .error (.invalidArguments text cause) := by
  simp only [ofText, he, hbody]

/-- A text that is an expression with readable arguments is a format. -/
lemma exists_ofText_eq_ok (he : ∀ cause, Expression.ofText text ≠ .error cause)
    (hbody : ∀ name body cause, Expression.ofText text = .ok ⟨name, some body⟩ →
      Argument.literals body ≠ .error cause) : ∃ f, ofText text = .ok f := by
  cases hexpr : Expression.ofText text with
  | error cause => exact absurd hexpr (he cause)
  | ok e =>
    obtain ⟨name, _ | body⟩ := e
    · exact ⟨property name, ofText_eq_property_iff.2 hexpr⟩
    · cases hargs : Argument.literals body with
      | error cause => exact absurd hargs (hbody name body cause hexpr)
      | ok arguments => exact ⟨method name arguments, ofText_eq_method_iff.2 ⟨body, hexpr, hargs⟩⟩

/-! ### What is read -/

/-- The name is an identifier, and a call has an argument. -/
structure WellFormed (f : Format) : Prop where
  name : isIdentifier f.name.toList = true
  arguments : ∀ name, f ≠ method name []

theorem wellFormed_of_ofText {f : Format} (h : ofText text = .ok f) : f.WellFormed := by
  cases f with
  | property name =>
    have he := Expression.ofText_eq_ok_iff.1 (ofText_eq_property_iff.1 h)
    exact ⟨he.2.name, by simp⟩
  | method name arguments =>
    obtain ⟨body, he, hbody⟩ := ofText_eq_method_iff.1 h
    refine ⟨(Expression.ofText_eq_ok_iff.1 he).2.name, ?_⟩
    rintro _ ⟨rfl⟩
    exact (Argument.literalsFrom_eq_ok_iff.1 hbody).ne_nil rfl

/-- A call that was read has at least one argument. -/
lemma length_arguments_pos {name : String} {arguments : List Literal}
    (h : ofText text = .ok (method name arguments)) : 0 < arguments.length := by
  rw [List.length_pos_iff]
  rintro rfl
  exact (wellFormed_of_ofText h).arguments name rfl

end Format

end FormatExpr
