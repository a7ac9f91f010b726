import FormatExpr.Proofs.Faults

/-!
# The grammar of pieces

`OnePiece` is the grammar of the texts that the splitter leaves in one piece: quoted runs are
closed, brackets match, and separators stand inside of quotes or brackets only. The splitter
agrees with it (`whole_iff_onePiece`).

A nested text can always be split, since a separator outside of all brackets is no fault
(`exists_split_iff_nested`); this makes a list one piece. Conversely the text that is left to the
splitter inside a whole text fits the lists and the quoted run that it has left open (`Unclosed`).
-/

namespace FormatExpr

/-- The texts with closed quoted runs and matching brackets in which every separator is quoted or
enclosed. -/
inductive OnePiece : List Char → Prop where
  | nil : OnePiece []
  | plain {c : Char} {cs : List Char} (hq : isQuote c = false) (ho : c ≠ listOpen)
      (hc : c ≠ listClose) (hs : c ≠ separator) (h : OnePiece cs) : OnePiece (c :: cs)
  | quoted {q : Char} {run cs : List Char} (hq : isQuote q = true) (hr : q ∉ run)
      (h : OnePiece cs) : OnePiece (q :: run ++ q :: cs)
  | enclosed {inner cs : List Char} (hi : Nested listOpen listClose inner) (h : OnePiece cs) :
      OnePiece (listOpen :: inner ++ listClose :: cs)

lemma OnePiece.nested {text : List Char} (h : OnePiece text) : Nested listOpen listClose text := by
  induction h with
  | nil => exact .nil
  | plain hq ho hc _ _ ih => exact .plain hq ho hc ih
  | quoted hq hr _ ih => exact .quoted hq hr ih
  | enclosed hi _ ih => exact .enclosed hi ih

lemma OnePiece.nestedTop : NestedTop listOpen listClose OnePiece :=
  ⟨.quoted, .enclosed⟩

namespace Piece

/-! ### Derived texts are whole -/

lemma whole_of_onePiece {text : List Char} (h : OnePiece text) : Whole text := by
  induction h with
  | nil => exact .nil
  | @plain c cs hq ho hc hs _ ih =>
    have hone : Whole [c] := .of_plain (by simp [hq, ho, hc, hs])
    exact hone.append ih
  | quoted hq hr _ ih =>
    have := (Whole.quoted hq hr).append ih
    rwa [List.append_assoc] at this
  | enclosed hi _ ih =>
    obtain ⟨pieces, hinner⟩ := (exists_split_iff_nested 0).2 hi
    have := (whole_list hinner).append ih
    rwa [List.append_assoc] at this

/-! ### Whole texts are derived -/

/-- What the splitter passes over without a cut fits what it has left open. -/
lemma unclosed_of_splitFrom {lists : List Nat} {quote : Option OpenQuote} {column : Nat}
    {text first : List Char} (h : splitFrom lists quote column text = .ok (first, [])) :
    Unclosed listOpen listClose OnePiece lists.length (quote.map OpenQuote.mark) text := by
  induction text generalizing lists quote column first with
  | nil =>
    obtain ⟨rfl, rfl, -⟩ := state_of_splitFrom_nil h
    exact .last .nil
  | cons c cs ih =>
    rw [splitFrom_cons] at h
    cases hstep : step lists quote column c with
    | stay lists' quote' =>
      rw [hstep] at h
      obtain ⟨rest, -, h⟩ := eq_extend_of_map_extend h
      have hrest := ih h
      cases quote with
      | some q =>
        obtain ⟨rfl, rfl⟩ : lists = lists' ∧ OpenQuote.next (some q) column c = quote' := by
          simpa [step] using hstep
        exact hrest.cons_other OnePiece.nestedTop (by simp) (by simp)
      | none =>
        simp only [step] at hstep
        split_ifs at hstep with ho hc hs
        · obtain ⟨rfl, rfl⟩ := Step.stay.inj hstep
          rw [ho]
          exact hrest.cons_open OnePiece.nestedTop
        · cases lists with
          | nil => cases hstep
          | cons bracket outer =>
            obtain ⟨rfl, rfl⟩ := Step.stay.inj hstep
            rw [hc]
            exact hrest.cons_close
        · obtain ⟨rfl, rfl⟩ := Step.stay.inj hstep
          refine hrest.cons_other OnePiece.nestedTop (fun _ => ⟨ho, hc⟩) ?_
          intro _ hq hdepth cs hcs
          have hsep : c ≠ separator := by
            intro hc
            exact hs ⟨hc, List.length_eq_zero_iff.1 hdepth⟩
          exact .plain hq ho hc hsep hcs
    | cut =>
      rw [hstep] at h
      obtain ⟨next, later, -, hlater, -⟩ := eq_cons_of_map_cut h
      cases hlater
    | stray =>
      rw [hstep] at h
      cases h

/-- A text is left in one piece exactly when its quoted runs are closed, its brackets match, and
every separator in it is quoted or enclosed. -/
theorem whole_iff_onePiece {text : List Char} : Whole text ↔ OnePiece text := by
  constructor
  · intro h
    have hrest := unclosed_of_splitFrom (h.splitFrom_eq 0)
    cases hrest with
    | last h => exact h
  · exact whole_of_onePiece

end Piece

end FormatExpr
