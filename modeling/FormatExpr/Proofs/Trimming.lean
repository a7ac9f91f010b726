import Mathlib
import FormatExpr.Text.Blank

/-!
# Trimming

Trimming takes the blank runs off both ends of a text. What is left is tight: it neither begins
nor ends with a blank, and it is the only tight text with which blank runs make up the given one
(`trim_append`, `exists_trim`).
-/

namespace FormatExpr.Text

/-- Every character of the text is blank. -/
def IsBlankRun (cs : List Char) : Prop :=
  ∀ c ∈ cs, isBlank c = true

instance (cs : List Char) : Decidable (IsBlankRun cs) :=
  decidable_of_iff (cs.all isBlank = true) List.all_eq_true

/-- The text neither begins nor ends with a blank. -/
def IsTight (cs : List Char) : Prop :=
  (∀ c ∈ cs.head?, isBlank c = false) ∧ ∀ c ∈ cs.getLast?, isBlank c = false

lemma isBlankRun_nil : IsBlankRun [] := by
  simp [IsBlankRun]

lemma isBlankRun_space : IsBlankRun [' '] := by
  decide

lemma IsBlankRun.reverse {cs : List Char} (h : IsBlankRun cs) : IsBlankRun cs.reverse :=
  fun c hc => h c (List.mem_reverse.1 hc)

lemma IsBlankRun.append {cs ds : List Char} (hc : IsBlankRun cs) (hd : IsBlankRun ds) :
    IsBlankRun (cs ++ ds) := by
  intro c hmem
  rcases List.mem_append.1 hmem with hmem | hmem
  · exact hc c hmem
  · exact hd c hmem

/-- A text between two characters that are no blanks is tight. -/
lemma isTight_between {first last : Char} (hf : isBlank first = false) (hl : isBlank last = false)
    (content : List Char) : IsTight (first :: content ++ [last]) := by
  refine ⟨?_, ?_⟩
  · simpa using hf
  · rw [List.getLast?_concat]
    simpa using hl

/-- Nothing but the empty text is both tight and blank. -/
lemma IsTight.eq_nil {cs : List Char} (h : IsTight cs) (hblank : IsBlankRun cs) : cs = [] := by
  cases cs with
  | nil => rfl
  | cons c cs =>
    have htight := h.1 c rfl
    rw [hblank c (by simp)] at htight
    cases htight

/-! ### One end -/

lemma trimStart_append {lead : List Char} (h : IsBlankRun lead) (cs : List Char) :
    trimStart (lead ++ cs) = trimStart cs :=
  List.dropWhile_append_of_pos h

lemma trimStart_eq_self {cs : List Char} (h : ∀ c ∈ cs.head?, isBlank c = false) :
    trimStart cs = cs := by
  cases cs with
  | nil => rfl
  | cons c cs =>
    have hc := h c rfl
    simp [trimStart, hc]

lemma exists_trimStart (cs : List Char) :
    ∃ lead, IsBlankRun lead ∧ cs = lead ++ trimStart cs ∧
      ∀ c ∈ (trimStart cs).head?, isBlank c = false := by
  refine ⟨cs.takeWhile isBlank, ?_, ?_, ?_⟩
  · intro c hc
    exact List.mem_takeWhile_imp hc
  · exact List.takeWhile_append_dropWhile.symm
  · intro c hc
    have := List.head?_dropWhile_not isBlank cs
    rw [← trimStart, hc] at this
    simpa using this

lemma trimEnd_eq_reverse (cs : List Char) : trimEnd cs = (trimStart cs.reverse).reverse :=
  rfl

/-! ### Both ends -/

/-- A tight text between blank runs is what trimming leaves. -/
theorem trim_append {lead cs trail : List Char} (hlead : IsBlankRun lead)
    (htrail : IsBlankRun trail) (hcs : IsTight cs) : trim (lead ++ cs ++ trail) = cs := by
  rw [trim, List.append_assoc, trimStart_append hlead]
  cases cs with
  | nil =>
    rw [List.nil_append, ← List.append_nil trail, trimStart_append htrail]
    rfl
  | cons c cs =>
    have hhead : ∀ d ∈ (c :: cs ++ trail).head?, isBlank d = false := by
      simpa using hcs.1
    have hlast : ∀ d ∈ (c :: cs).reverse.head?, isBlank d = false := by
      rw [List.head?_reverse]
      exact hcs.2
    rw [trimStart_eq_self hhead, trimEnd_eq_reverse, List.reverse_append,
      trimStart_append htrail.reverse, trimStart_eq_self hlast, List.reverse_reverse]

/-- Every text is a tight text between two blank runs. -/
theorem exists_trim (text : List Char) :
    ∃ lead trail, IsBlankRun lead ∧ IsBlankRun trail ∧ text = lead ++ trim text ++ trail ∧
      IsTight (trim text) := by
  obtain ⟨lead, hlead, htext, hhead⟩ := exists_trimStart text
  obtain ⟨trail, htrail, hstarted, hlast⟩ := exists_trimStart (trimStart text).reverse
  have hend : trimStart text = trim text ++ trail.reverse := by
    have := congrArg List.reverse hstarted
    rwa [List.reverse_reverse, List.reverse_append, ← trimEnd_eq_reverse] at this
  refine ⟨lead, trail.reverse, hlead, htrail.reverse, ?_, ?_, ?_⟩
  · rw [List.append_assoc, ← hend]
    exact htext
  · intro c hc
    refine hhead c ?_
    rw [hend]
    cases htrim : trim text with
    | nil => simp [htrim] at hc
    | cons d ds => simpa [htrim] using hc
  · intro c hc
    refine hlast c ?_
    rwa [← List.getLast?_reverse, ← trimEnd_eq_reverse]

/-- Blanks around a text do not change what trimming leaves. -/
theorem trim_blanks {lead text trail : List Char} (hlead : IsBlankRun lead)
    (htrail : IsBlankRun trail) : trim (lead ++ text ++ trail) = trim text := by
  obtain ⟨start, rest, hstart, hrest, htext, htight⟩ := exists_trim text
  have htrim := trim_append (hlead.append hstart) (hrest.append htrail) htight
  have hsame : lead ++ start ++ trim text ++ (rest ++ trail) = lead ++ text ++ trail := by
    conv_rhs => rw [htext]
    simp
  rw [← hsame, htrim]

end FormatExpr.Text
