import FormatExpr.Proofs.Nesting

/-!
# The depth of lists

`Text.listDepth` counts the lists that a text opens and does not close, leaving out the brackets in
quoted runs. A text is balanced if none of its prefixes closes more lists than it opens and if the
whole text leaves nothing open (`Text.IsBalanced`). This says by counting what `Nested` says by
grammar (`Text.isBalanced_iff_nested`).

Quoted runs and lists are both groups: something stays open from the first character up to the last
one, and nothing before or after (`Text.IsGroup`).
-/

namespace FormatExpr.Text

variable {text u v : List Char} {c : Char} {mark : Option Char}

/-! ### Depth -/

/-- How a character changes the number of open lists. In a quoted run it does not. -/
def bracketWeight (mark : Option Char) (c : Char) : Int :=
  if mark.isSome then 0 else if c = listOpen then 1 else if c = listClose then -1 else 0

/-- The lists that a text opens less those that it closes, where `mark` is the quote character of
the run that is open before it. -/
def listDepth (mark : Option Char) : List Char → Int
  | [] => 0
  | c :: cs => bracketWeight mark c + listDepth (nextMark mark c) cs

lemma listDepth_append (mark : Option Char) (u v : List Char) :
    listDepth mark (u ++ v) = listDepth mark u + listDepth (markAfter mark u) v := by
  induction u generalizing mark with
  | nil => simp [listDepth, markAfter]
  | cons c u ih =>
    simp only [List.cons_append, listDepth, ih, markAfter, List.foldl_cons, add_assoc]

lemma listDepth_open (cs : List Char) : listDepth none (listOpen :: cs) = 1 + listDepth none cs :=
  rfl

lemma listDepth_close (cs : List Char) :
    listDepth none (listClose :: cs) = -1 + listDepth none cs :=
  rfl

lemma listDepth_quote {q : Char} (hq : isQuote q = true) (cs : List Char) :
    listDepth none (q :: cs) = listDepth (some q) cs := by
  have hne : q ≠ listOpen ∧ q ≠ listClose := ⟨ne_of_isQuote hq rfl, ne_of_isQuote hq rfl⟩
  simp [listDepth, bracketWeight, hne, nextMark, hq]

/-- Within a quoted run brackets do not count. -/
lemma listDepth_run {q : Char} {run : List Char} (hr : q ∉ run) : listDepth (some q) run = 0 := by
  induction run with
  | nil => rfl
  | cons c run ih =>
    obtain ⟨hc, hr⟩ := not_or.1 (mt List.mem_cons.2 hr)
    rw [listDepth, nextMark, if_neg (Ne.symm hc), ih hr]
    rfl

/-! ### Balanced texts -/

/-- All quoted runs and all lists of the text are closed, and no list is closed that is not
open. -/
structure IsBalanced (text : List Char) : Prop where
  quotes : markAfter none text = none
  lists : listDepth none text = 0
  noStray : ∀ before, before <+: text → 0 ≤ listDepth none before

/-- Neither a quoted run nor a list is open after the text. -/
def AtTop (before : List Char) : Prop :=
  markAfter none before = none ∧ listDepth none before = 0

instance (before : List Char) : Decidable (AtTop before) :=
  inferInstanceAs (Decidable (_ ∧ _))

lemma AtTop.append_iff (hu : AtTop u) : AtTop (u ++ v) ↔ AtTop v := by
  rw [AtTop, AtTop, markAfter_append, listDepth_append, hu.1, hu.2, zero_add]

lemma IsBalanced.atTop (h : IsBalanced text) : AtTop text :=
  ⟨h.quotes, h.lists⟩

lemma IsBalanced.nil : IsBalanced [] where
  quotes := rfl
  lists := rfl
  noStray := by
    intro before h
    rw [List.prefix_nil.1 h, listDepth]

lemma IsBalanced.append (hu : IsBalanced u) (hv : IsBalanced v) : IsBalanced (u ++ v) where
  quotes := (hu.atTop.append_iff.2 hv.atTop).1
  lists := (hu.atTop.append_iff.2 hv.atTop).2
  noStray := by
    intro before h
    rcases List.prefix_or_prefix_of_prefix h (List.prefix_append u v) with h' | ⟨w, rfl⟩
    · exact hu.noStray before h'
    · rw [listDepth_append, hu.quotes, hu.lists, zero_add]
      exact hv.noStray w ((List.prefix_append_right_inj u).1 h)

lemma IsBalanced.singleton (hq : isQuote c = false) (ho : c ≠ listOpen) (hc : c ≠ listClose) :
    IsBalanced [c] where
  quotes := markAfter_plain hq []
  lists := by simp [listDepth, bracketWeight, ho, hc]
  noStray := by
    intro before h
    rcases List.prefix_cons_iff.1 h with rfl | ⟨t, rfl, ht⟩
    · rw [listDepth]
    · rw [List.prefix_nil.1 ht]
      simp [listDepth, bracketWeight, ho, hc]

/-! ### Groups -/

/-- Something that the first character opens stays open up to the last character, which closes
it. -/
structure IsGroup (first : Char) (inner : List Char) (last : Char) : Prop where
  closed : AtTop (first :: (inner ++ [last]))
  inside : ∀ before, before <+: inner →
    0 ≤ listDepth none (first :: before) ∧ ¬AtTop (first :: before)

lemma isGroup_quoted {q : Char} {run : List Char} (hq : isQuote q = true) (hr : q ∉ run) :
    IsGroup q run q where
  closed := by
    refine ⟨markAfter_quoted hq hr [], ?_⟩
    rw [listDepth_quote hq, listDepth_append, listDepth_run hr, markAfter_run hr]
    rfl
  inside := by
    intro before hbefore
    have hr : q ∉ before := fun h => hr (hbefore.subset h)
    have hdepth : listDepth none (q :: before) = 0 := by
      rw [listDepth_quote hq, listDepth_run hr]
    refine ⟨hdepth.ge, ?_⟩
    rintro ⟨hmark, -⟩
    rw [markAfter_quote hq, markAfter_run hr] at hmark
    cases hmark

lemma IsBalanced.isGroup {inner : List Char} (h : IsBalanced inner) :
    IsGroup listOpen inner listClose where
  closed := by
    refine ⟨?_, ?_⟩
    · rw [markAfter_plain rfl, markAfter_append, h.quotes, markAfter_plain rfl]
      rfl
    · rw [listDepth_open, listDepth_append, h.quotes, h.lists, listDepth_close]
      rfl
  inside := by
    intro before hbefore
    have hdepth := h.noStray before hbefore
    rw [AtTop, listDepth_open]
    exact ⟨by omega, fun htop => by omega⟩

lemma IsGroup.isBalanced {first last : Char} {inner : List Char} (h : IsGroup first inner last) :
    IsBalanced (first :: (inner ++ [last])) where
  quotes := h.closed.1
  lists := h.closed.2
  noStray := by
    intro before hbefore
    rcases List.prefix_cons_iff.1 hbefore with rfl | ⟨t, rfl, ht⟩
    · rw [listDepth]
    · rcases List.prefix_concat_iff.1 ht with rfl | ht
      · exact h.closed.2.ge
      · exact (h.inside t ht).1

/-! ### Balanced texts are the nested ones -/

lemma isBalanced_of_nested (h : Nested listOpen listClose text) : IsBalanced text := by
  induction h with
  | nil => exact .nil
  | plain hq ho hc _ ih => exact (IsBalanced.singleton hq ho hc).append ih
  | quoted hq hr _ ih => simpa using (isGroup_quoted hq hr).isBalanced.append ih
  | enclosed _ _ ihi ih => simpa using ihi.isGroup.isBalanced.append ih

/-- A text that closes what is open before it and never more than that. -/
lemma unclosed_of_listDepth {depth : Nat} (hquotes : markAfter mark text = none)
    (hlists : depth + listDepth mark text = 0)
    (hstray : ∀ before, before <+: text → 0 ≤ depth + listDepth mark before) :
    Unclosed listOpen listClose (Nested listOpen listClose) depth mark text := by
  induction text generalizing depth mark with
  | nil =>
    rw [show mark = none from hquotes]
    obtain rfl : depth = 0 := by simpa [listDepth] using hlists
    exact .last .nil
  | cons c cs ih =>
    have hrest : ∀ depth' : Nat, (depth' : Int) = depth + bracketWeight mark c →
        Unclosed listOpen listClose (Nested listOpen listClose) depth' (nextMark mark c) cs := by
      intro depth' hdepth
      refine ih hquotes ?_ ?_
      · rw [hdepth, add_assoc]
        exact hlists
      · intro before hbefore
        rw [hdepth, add_assoc]
        exact hstray (c :: before) ((List.prefix_cons_inj c).2 hbefore)
    cases mark with
    | some q =>
      have hnext := hrest depth (add_zero _).symm
      by_cases hc : c = q
      · rw [nextMark, if_pos hc] at hnext
        rw [hc]
        exact hnext.cons_unquote
      · rw [nextMark, if_neg hc] at hnext
        exact hnext.cons_hidden hc
    | none =>
      have htop := Nested.nestedTop listOpen listClose
      by_cases ho : c = listOpen
      · subst ho
        exact (hrest (depth + 1) rfl).cons_open htop
      by_cases hc : c = listClose
      · subst hc
        -- there is a list to close, since the bracket is not a stray one
        have hpos := hstray [listClose] (by simp)
        obtain ⟨outer, rfl⟩ : ∃ outer, depth = outer + 1 :=
          Nat.exists_eq_succ_of_ne_zero (by rintro rfl; exact absurd hpos (by decide))
        exact (hrest outer (by simp [bracketWeight, ho])).cons_close
      have hnext := hrest depth (by simp [bracketWeight, ho, hc])
      cases hq : isQuote c with
      | true =>
        rw [nextMark, hq] at hnext
        exact hnext.cons_quote htop hq
      | false =>
        rw [nextMark, hq] at hnext
        exact hnext.cons_plain hq ho hc fun _ _ h => .plain hq ho hc h

/-- To be nested is to have every prefix close at most the lists it opens, and to leave nothing
open. -/
theorem isBalanced_iff_nested : IsBalanced text ↔ Nested listOpen listClose text := by
  constructor
  · intro h
    have hrest : Unclosed listOpen listClose (Nested listOpen listClose) 0 none text :=
      unclosed_of_listDepth h.quotes (by simp [h.lists]) (by simpa using h.noStray)
    cases hrest with
    | last h => exact h
  · exact isBalanced_of_nested

instance (text : List Char) : Decidable (IsBalanced text) :=
  decidable_of_iff (AtTop text ∧ ∀ before ∈ text.inits, 0 ≤ listDepth none before) <| by
    simp only [List.mem_inits]
    exact ⟨fun h => ⟨h.1.1, h.1.2, h.2⟩, fun h => ⟨h.atTop, h.noStray⟩⟩

example : IsBalanced "[a, '][']".toList ∧ ¬IsBalanced "][".toList ∧ ¬IsBalanced "'[a]".toList := by
  decide

end FormatExpr.Text
