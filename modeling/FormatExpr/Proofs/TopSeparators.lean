import FormatExpr.Proofs.Levels
import FormatExpr.Proofs.ListDepth

/-!
# Separators outside of quotes and lists

A separator is a top separator if no quoted run and no list is open before it
(`Text.topSeparators`). There is at most one way to cut a text at separators into balanced parts
without top separators (`Text.IsCutInto`), and the splitter finds it whenever there is one. It cuts
at the top separators of the text and nowhere else (`Piece.split_cuts_at_topSeparators`).
-/

namespace FormatExpr

namespace Text

variable {text u v : List Char} {c : Char}

/-! ### Top separators -/

/-- A separator stands in the place, counted from zero, and no quoted run and no list is open
before it. -/
def IsTopSeparator (text : List Char) (place : Nat) : Prop :=
  text[place]? = some separator ∧ AtTop (text.take place)

instance (text : List Char) (place : Nat) : Decidable (IsTopSeparator text place) :=
  inferInstanceAs (Decidable (_ ∧ _))

/-- The places of the separators outside of quotes and lists, from left to right. -/
def topSeparators (text : List Char) : List Nat :=
  (List.range text.length).filter (IsTopSeparator text ·)

lemma mem_topSeparators {place : Nat} :
    place ∈ topSeparators text ↔ IsTopSeparator text place := by
  rw [topSeparators, List.mem_filter, List.mem_range, decide_eq_true_eq]
  refine ⟨And.right, fun h => ⟨?_, h⟩⟩
  exact (List.getElem?_eq_some_iff.1 h.1).1

lemma isTopSeparator_append_left {place : Nat} (h : place < u.length) :
    IsTopSeparator (u ++ v) place ↔ IsTopSeparator u place := by
  rw [IsTopSeparator, IsTopSeparator, List.getElem?_append_left h,
    List.take_append_of_le_length h.le]

lemma isTopSeparator_append_right (hu : AtTop u) {place : Nat} :
    IsTopSeparator (u ++ v) (u.length + place) ↔ IsTopSeparator v place := by
  rw [IsTopSeparator, IsTopSeparator, List.getElem?_append_right (Nat.le_add_right _ _),
    Nat.add_sub_cancel_left, List.take_length_add_append, hu.append_iff]

/-- The top separators of two texts, where nothing is open between them. -/
lemma topSeparators_append (hu : AtTop u) (v : List Char) :
    topSeparators (u ++ v) = topSeparators u ++ (topSeparators v).map (u.length + ·) := by
  rw [topSeparators, List.length_append, List.range_add, List.filter_append, List.filter_map]
  congr 1
  · apply List.filter_congr
    intro place hplace
    exact decide_eq_decide.2 (isTopSeparator_append_left (List.mem_range.1 hplace))
  · congr 1
    apply List.filter_congr
    intro place _
    exact decide_eq_decide.2 (isTopSeparator_append_right hu)

/-- In a quoted run and in a list there are no top separators. -/
lemma IsGroup.topSeparators_eq_nil {first last : Char} {inner : List Char}
    (h : IsGroup first inner last) (hfirst : first ≠ separator) :
    topSeparators (first :: (inner ++ [last])) = [] := by
  rw [List.eq_nil_iff_forall_not_mem]
  intro place hplace
  obtain ⟨hchar, htop⟩ := mem_topSeparators.1 hplace
  cases place with
  | zero => exact hfirst (by simpa using hchar)
  | succ k =>
    have hk : k ≤ inner.length := by
      have := (List.getElem?_eq_some_iff.1 hchar).1
      simp at this
      omega
    rw [List.take_succ_cons, List.take_append_of_le_length hk] at htop
    exact (h.inside _ (List.take_prefix k inner)).2 htop

lemma topSeparators_separator_cons (rest : List Char) :
    topSeparators (separator :: rest) = 0 :: (topSeparators rest).map (1 + ·) := by
  have htop : AtTop [separator] := ⟨rfl, rfl⟩
  exact topSeparators_append htop rest

lemma topSeparators_singleton (hs : c ≠ separator) : topSeparators [c] = [] := by
  rw [List.eq_nil_iff_forall_not_mem]
  intro place hplace
  obtain ⟨hchar, -⟩ := mem_topSeparators.1 hplace
  exact hs (List.mem_singleton.1 (List.mem_of_getElem? hchar)).symm

lemma topSeparators_append_eq_nil_iff (hu : AtTop u) :
    topSeparators (u ++ v) = [] ↔ topSeparators u = [] ∧ topSeparators v = [] := by
  rw [topSeparators_append hu, List.append_eq_nil_iff, List.map_eq_nil_iff]

lemma IsGroup.topSeparators_append_eq_nil_iff {first last : Char} {inner : List Char}
    (h : IsGroup first inner last) (hfirst : first ≠ separator) (cs : List Char) :
    topSeparators (first :: inner ++ last :: cs) = [] ↔ topSeparators cs = [] := by
  rw [List.append_cons, List.cons_append, Text.topSeparators_append_eq_nil_iff h.closed,
    h.topSeparators_eq_nil hfirst]
  simp

lemma topSeparators_of_onePiece (h : OnePiece text) : topSeparators text = [] := by
  induction h with
  | nil => rfl
  | @plain c cs hq ho hc hs _ ih =>
    have htop := (IsBalanced.singleton hq ho hc).atTop
    exact (topSeparators_append_eq_nil_iff htop).2 ⟨topSeparators_singleton hs, ih⟩
  | @quoted q run cs hq hr _ ih =>
    have hgroup := isGroup_quoted hq hr
    exact (hgroup.topSeparators_append_eq_nil_iff (ne_of_isQuote hq rfl) cs).2 ih
  | @enclosed inner cs hi _ ih =>
    have hgroup := (isBalanced_of_nested hi).isGroup
    exact (hgroup.topSeparators_append_eq_nil_iff (by decide) cs).2 ih

lemma onePiece_of_topSeparators (h : Nested listOpen listClose text)
    (hnone : topSeparators text = []) : OnePiece text := by
  induction h with
  | nil => exact .nil
  | @plain c cs hq ho hc _ ih =>
    have htop := (IsBalanced.singleton hq ho hc).atTop
    have hs : c ≠ separator := by
      rintro rfl
      rw [topSeparators_separator_cons] at hnone
      cases hnone
    exact .plain hq ho hc hs (ih ((topSeparators_append_eq_nil_iff htop).1 hnone).2)
  | @quoted q run cs hq hr _ ih =>
    have hgroup := isGroup_quoted hq hr
    exact .quoted hq hr
      (ih ((hgroup.topSeparators_append_eq_nil_iff (ne_of_isQuote hq rfl) cs).1 hnone))
  | @enclosed inner cs hi _ _ ih =>
    have hgroup := (isBalanced_of_nested hi).isGroup
    exact .enclosed hi (ih ((hgroup.topSeparators_append_eq_nil_iff (by decide) cs).1 hnone))

/-- A text is one piece exactly if it is balanced and has no top separator. -/
theorem onePiece_iff_isBalanced :
    OnePiece text ↔ IsBalanced text ∧ topSeparators text = [] := by
  rw [isBalanced_iff_nested]
  exact ⟨fun h => ⟨h.nested, topSeparators_of_onePiece h⟩,
    fun h => onePiece_of_topSeparators h.1 h.2⟩

/-! ### Cuts at top separators -/

/-- There is at least one part, all parts are balanced and have no top separators, and they make up
the text when separators stand between them. -/
structure IsCutInto (text : List Char) (parts : List (List Char)) : Prop where
  ne_nil : parts ≠ []
  joined : [separator].intercalate parts = text
  balanced : ∀ part ∈ parts, IsBalanced part
  uncut : ∀ part ∈ parts, topSeparators part = []

instance (text : List Char) (parts : List (List Char)) : Decidable (IsCutInto text parts) :=
  decidable_of_iff (parts ≠ [] ∧ [separator].intercalate parts = text ∧
      (∀ part ∈ parts, IsBalanced part) ∧ ∀ part ∈ parts, topSeparators part = [])
    ⟨fun h => ⟨h.1, h.2.1, h.2.2.1, h.2.2.2⟩, fun h => ⟨h.ne_nil, h.joined, h.balanced, h.uncut⟩⟩

example : IsCutInto "a,[b,c]".toList [['a'], "[b,c]".toList] ∧
    ¬IsCutInto "a,b".toList ["a,b".toList] ∧
    ¬IsCutInto "[b,c]".toList ["[b".toList, "c]".toList] := by
  decide

lemma IsCutInto.onePiece {parts : List (List Char)} (h : IsCutInto text parts) :
    ∀ part ∈ parts, OnePiece part :=
  fun part hpart => onePiece_iff_isBalanced.2 ⟨h.balanced part hpart, h.uncut part hpart⟩

end Text

namespace Piece

/-- What stands before the piece that follows these: their texts, each with its separator. -/
def leading (before : List Piece) : List Char :=
  before.flatMap fun p => p.text ++ [separator]

lemma leading_cons (p : Piece) (before : List Piece) :
    leading (p :: before) = p.text ++ separator :: leading before := by
  rw [leading, List.flatMap_cons, List.append_assoc]
  rfl

end Piece

namespace Argument

variable {offset : Nat} {text : List Char} {pieces : List Piece}

lemma Cuts.joined (h : Cuts offset text pieces) :
    [separator].intercalate (pieces.map Piece.text) = text := by
  induction h with
  | last _ => exact List.intercalate_singleton
  | @cons offset first rest pieces _ hrest ih =>
    have hne : pieces.map Piece.text ≠ [] := by
      cases hrest <;> exact List.cons_ne_nil _ _
    rw [List.map_cons, List.intercalate_cons_of_ne_nil hne, ih]
    simp

lemma Cuts.isCutInto (h : Cuts offset text pieces) :
    Text.IsCutInto text (pieces.map Piece.text) where
  ne_nil := by cases h <;> exact List.cons_ne_nil _ _
  joined := h.joined
  balanced := by
    rw [List.forall_mem_map]
    exact fun p hp => (Text.onePiece_iff_isBalanced.1 (h.onePiece p hp)).1
  uncut := by
    rw [List.forall_mem_map]
    exact fun p hp => (Text.onePiece_iff_isBalanced.1 (h.onePiece p hp)).2

/-- Parts without top separators that make up a text are its pieces. -/
lemma exists_cuts_of_joined {parts : List (List Char)} (hne : parts ≠ [])
    (hparts : ∀ part ∈ parts, OnePiece part) (offset : Nat) :
    ∃ pieces, Cuts offset ([separator].intercalate parts) pieces ∧
      pieces.map Piece.text = parts := by
  induction parts generalizing offset with
  | nil => exact absurd rfl hne
  | cons first parts ih =>
    obtain ⟨hfirst, hparts⟩ := List.forall_mem_cons.1 hparts
    cases parts with
    | nil =>
      rw [List.intercalate_singleton]
      exact ⟨_, .last hfirst, rfl⟩
    | cons next parts =>
      obtain ⟨pieces, hcuts, htexts⟩ :=
        ih (List.cons_ne_nil _ _) hparts (offset + first.length + 1)
      rw [List.intercalate_cons_cons, List.append_assoc, List.singleton_append]
      exact ⟨_, .cons hfirst hcuts, by rw [List.map_cons, htexts]⟩

/-- Balanced parts without top separators are the pieces of the text, whatever stands before it. -/
lemma exists_cuts_of_isCutInto {parts : List (List Char)} (h : Text.IsCutInto text parts)
    (offset : Nat) : ∃ pieces, Cuts offset text pieces ∧ pieces.map Piece.text = parts := by
  rw [← h.joined]
  exact exists_cuts_of_joined h.ne_nil h.onePiece offset

/-- Every piece stands behind the pieces before it and their separators, as many characters further
on as its offset says. -/
lemma Cuts.eq_leading_append (h : Cuts offset text pieces) {before after : List Piece} {p : Piece}
    (hp : pieces = before ++ p :: after) :
    ∃ rest, text = Piece.leading before ++ p.text ++ rest ∧
      p.offset = offset + (Piece.leading before).length := by
  induction h generalizing before with
  | last _ =>
    cases before with
    | nil =>
      obtain ⟨rfl, rfl⟩ := List.cons.inj hp
      exact ⟨[], by simp [Piece.leading], rfl⟩
    | cons _ before => simp at hp
  | @cons offset first rest pieces _ _ ih =>
    cases before with
    | nil =>
      obtain ⟨rfl, rfl⟩ := List.cons.inj hp
      exact ⟨separator :: rest, by simp [Piece.leading], rfl⟩
    | cons _ before =>
      obtain ⟨rfl, hlater⟩ := List.cons.inj hp
      obtain ⟨trail, rfl, hoffset⟩ := ih hlater
      refine ⟨trail, by simp [Piece.leading_cons], ?_⟩
      simp only [hoffset, Piece.leading_cons, List.length_append, List.length_cons]
      omega

/-- The first piece begins with the text, and every other one behind a top separator. -/
lemma Cuts.map_offset (h : Cuts offset text pieces) :
    pieces.map Piece.offset
      = offset :: (Text.topSeparators text).map fun place => offset + place + 1 := by
  induction h with
  | last h =>
    rw [Text.topSeparators_of_onePiece h]
    rfl
  | @cons offset first rest pieces hfirst _ ih =>
    have htop := (Text.isBalanced_of_nested hfirst.nested).atTop
    have hplace : ∀ place, offset + (first.length + (1 + place)) + 1
        = offset + first.length + 1 + place + 1 := by
      intro place
      omega
    simp only [List.map_cons, ih, Text.topSeparators_append htop, Text.topSeparators_separator_cons,
      Text.topSeparators_of_onePiece hfirst, List.nil_append, List.map_map, Function.comp_def,
      Nat.add_zero, hplace]

end Argument

namespace Piece

/-- Splitting loses nothing and cuts at the top separators only. The texts of the pieces are a way
to cut the text into balanced parts without top separators, and they are the only one. Every piece
has as many characters before it as its offset says. There is one piece more than there are top
separators. The splitter fails only on a text that cannot be cut in this way. -/
theorem split_cuts_at_topSeparators (offset : Nat) (text : List Char) :
    (∀ pieces, split offset text = .ok pieces →
      Text.IsCutInto text (pieces.map Piece.text) ∧
      (∀ before p after, pieces = before ++ p :: after → ∃ rest,
        text = leading before ++ p.text ++ rest ∧ p.offset = offset + (leading before).length) ∧
      (∀ parts, Text.IsCutInto text parts → parts = pieces.map Piece.text) ∧
      pieces.length = 1 + (Text.topSeparators text).length) ∧
    ∀ parts, Text.IsCutInto text parts → ∃ pieces, split offset text = .ok pieces := by
  refine ⟨?_, ?_⟩
  · intro pieces hsplit
    have hcuts := Argument.split_eq_ok_iff_cuts.1 hsplit
    refine ⟨hcuts.isCutInto, fun before p after hp => hcuts.eq_leading_append hp, ?_, ?_⟩
    · intro parts hparts
      obtain ⟨pieces', hcuts', rfl⟩ := Argument.exists_cuts_of_isCutInto hparts offset
      rw [hcuts.unique hcuts']
    · have hlength := congrArg List.length hcuts.map_offset
      simpa [Nat.add_comm] using hlength
  · intro parts hparts
    obtain ⟨pieces, hcuts, -⟩ := Argument.exists_cuts_of_isCutInto hparts offset
    exact ⟨pieces, Argument.split_eq_ok_iff_cuts.2 hcuts⟩

/-- Separators in quotes and in lists, a bracket in quotes, an empty last piece, and characters of
several bytes. -/
theorem split_cuts_at_topSeparators_hidden :
    split 3 "é,'ü,]',[x,[]],".toList
      = .ok [⟨['é'], 3⟩, ⟨"'ü,]'".toList, 5⟩, ⟨"[x,[]]".toList, 11⟩, ⟨[], 18⟩] ∧
    Text.IsCutInto "é,'ü,]',[x,[]],".toList [['é'], "'ü,]'".toList, "[x,[]]".toList, []] ∧
    (∃ rest, "é,'ü,]',[x,[]],".toList = "é,'ü,]',".toList ++ "[x,[]]".toList ++ rest ∧
      11 = 3 + "é,'ü,]',".toList.length) ∧
    (∀ parts, Text.IsCutInto "é,'ü,]',[x,[]],".toList parts →
      parts = [['é'], "'ü,]'".toList, "[x,[]]".toList, []]) ∧
    4 = 1 + (Text.topSeparators "é,'ü,]',[x,[]],".toList).length := by
  have hsplit : split 3 "é,'ü,]',[x,[]],".toList
      = .ok [⟨['é'], 3⟩, ⟨"'ü,]'".toList, 5⟩, ⟨"[x,[]]".toList, 11⟩, ⟨[], 18⟩] := by cbv
  obtain ⟨hcut, hplaced, honly, hlength⟩ := (split_cuts_at_topSeparators 3 _).1 _ hsplit
  exact ⟨hsplit, hcut, hplaced [_, _] _ [_] rfl, honly, hlength⟩

end Piece

end FormatExpr
