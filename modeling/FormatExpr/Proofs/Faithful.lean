import FormatExpr.Proofs.NumberText
import FormatExpr.Proofs.PieceGrammar

/-!
# Faithful literals

A string is written between two quotes without any escape, and the text of an infinite number has
no digits. So not every literal can be told from its text. The faithful ones are those whose
strings stay in one piece between their quotes, and whose numbers are finite; this includes every
literal without a string that holds both quote characters (`IsPlain.isFaithful`).

`Literal.ind` is induction over literals with the elements of a list as the smaller ones.
-/

namespace FormatExpr

namespace Literal

/-- To show something of every literal it is enough to show it of a list when it holds of the
elements, and of everything that is no list. -/
@[elab_as_elim, induction_eliminator]
theorem ind {motive : Literal → Prop} (string : ∀ s, motive (string s))
    (number : ∀ n, motive (number n)) (boolean : ∀ b, motive (boolean b))
    (list : ∀ items, (∀ x ∈ items, motive x) → motive (list items)) (x : Literal) : motive x :=
  match x with
  | .string s => string s
  | .number n => number n
  | .boolean b => boolean b
  | .list items => list items fun x _ => ind string number boolean list x

/-- Every string and every number in the literal has the given property. -/
inductive Every (onString : String → Prop) (onNumber : Number → Prop) : Literal → Prop where
  | string {s : String} (h : onString s) : Every onString onNumber (string s)
  | number {n : Number} (h : onNumber n) : Every onString onNumber (number n)
  | boolean (b : Bool) : Every onString onNumber (boolean b)
  | list {items : List Literal} (h : ∀ x ∈ items, Every onString onNumber x) :
      Every onString onNumber (list items)

lemma Every.imp {onString onString' : String → Prop} {onNumber : Number → Prop} {x : Literal}
    (himp : ∀ s, onString s → onString' s) (h : Every onString onNumber x) :
    Every onString' onNumber x := by
  induction h with
  | string h => exact string (himp _ h)
  | number h => exact number h
  | boolean b => exact boolean b
  | list _ ih => exact list ih

/-- No string in the literal holds both quote characters, and every number in it is finite. -/
def IsPlain : Literal → Prop :=
  Every (fun s => ¬('\'' ∈ s.toList ∧ '"' ∈ s.toList)) Number.IsFinite

/-- Every string in the literal is one piece between its quotes, and every number in it is
finite. -/
def IsFaithful : Literal → Prop :=
  Every (fun s => OnePiece (quoted s.toList)) Number.IsFinite

/-! ### Quotes -/

lemma isQuote_quoteFor (s : List Char) : isQuote (quoteFor s) = true := by
  rw [quoteFor]
  split_ifs <;> decide

/-- A string without one of the two quote characters does not hold the one it is written with. -/
lemma quoteFor_notMem {s : List Char} (h : ¬('\'' ∈ s ∧ '"' ∈ s)) : quoteFor s ∉ s := by
  rw [quoteFor]
  split_ifs with hs
  · rw [List.contains_iff_mem] at hs
    intro hd
    exact h ⟨hs, hd⟩
  · rwa [List.contains_iff_mem] at hs

lemma onePiece_quoted {s : List Char} (h : ¬('\'' ∈ s ∧ '"' ∈ s)) : OnePiece (quoted s) :=
  .quoted (isQuote_quoteFor s) (quoteFor_notMem h) .nil

lemma IsPlain.isFaithful {x : Literal} (h : x.IsPlain) : x.IsFaithful :=
  Every.imp (fun _ => onePiece_quoted) h

end Literal

end FormatExpr
