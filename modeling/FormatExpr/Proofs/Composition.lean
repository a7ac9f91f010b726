import FormatExpr.Proofs.Layout
import FormatExpr.Proofs.Levels

/-!
# Argument texts made of argument texts

What decoding does with a text follows from what it does with the parts of the text. More characters
in front move the columns of errors and nothing else (`literalsFrom_shift`). Blanks around a text
do no more than that (`literals_blanks`), texts with separators between them have the literals of
all of them (`literals_joined`), and a text in brackets has one literal, the list of its literals
(`literals_bracketed`).
-/

namespace FormatExpr

open Text

/-! ### More characters in front -/

namespace Piece

lemma split_shift (k offset : Nat) (text : List Char) :
    split (offset + k) text
      = ((split offset text).map (List.map (shift k))).mapError (ArgumentError.shift k) := by
  have hshift := splitFrom_shift k [] none (offset + 1) text
  rw [List.map_nil, Option.map_none, Nat.add_right_comm] at hshift
  rw [split, split, hshift]
  cases splitFrom [] none (offset + 1) text <;> rfl

lemma trimmed_shift (k : Nat) (p : Piece) : (p.shift k).trimmed = p.trimmed.shift k := by
  simp only [Piece.trimmed, shift, Nat.add_right_comm]

end Piece

namespace Argument

/-- A text with `k` more characters before it has the same literals, or the same error `k` columns
further on. -/
theorem literalsFrom_shift (k offset : Nat) (text : List Char) :
    literalsFrom (offset + k) text
      = (literalsFrom offset text).mapError (ArgumentError.shift k) := by
  -- by the length of the text, since the content of a list is decoded as a text of its own
  induction hn : text.length using Nat.strong_induction_on generalizing offset text with
  | _ n ih =>
    subst hn
    rw [literalsFrom_eq, literalsFrom_eq, Piece.split_shift]
    cases hsplit : Piece.split offset text with
    | error e => rfl
    | ok pieces =>
      refine mapM_map_mapError ?_
      intro p hp
      cases htoken : Token.ofText (trim p.text) with
      | literal x =>
        rw [Piece.literal_of_ofText htoken, @Piece.literal_of_ofText (p.shift k) _ htoken]
        rfl
      | list content =>
        rw [Piece.literal_of_list htoken, @Piece.literal_of_list (p.shift k) _ htoken,
          Piece.trimmed_shift]
        split_ifs
        · rfl
        · have hlt : content.length < text.length := by
            have := Token.length_lt_of_ofText_eq_list htoken
            have := length_trim_le p.text
            have := Piece.length_le_of_mem_split hsplit hp
            omega
          have hcontent := ih _ hlt (p.trimmed.offset + 1) content rfl
          rw [Nat.add_right_comm] at hcontent
          rw [Piece.shift, hcontent]
          cases literalsFrom (p.trimmed.offset + 1) content <;> rfl

/-- The literals of a text do not depend on where the text stands. -/
lemma literalsFrom_of_literals {text : String} {xs : List Literal} (h : literals text = .ok xs)
    (offset : Nat) : literalsFrom offset text.toList = .ok xs := by
  rw [literals] at h
  rw [← Nat.zero_add offset, literalsFrom_shift, h]
  rfl

end Argument

/-! ### Blanks -/

/-- Blanks after a text do not mend what is wrong with it. -/
lemma Fault.append_blanks {text trail : List Char} {e : ArgumentError} (h : Fault text e)
    (htrail : IsBlankRun trail) : Fault (text ++ trail) e := by
  cases h with
  | stray h =>
    rw [List.append_assoc]
    exact .stray h
  | @quote before run q h hq hr =>
    rw [List.append_assoc]
    have hnotMem : q ∉ run ++ trail := by simp [hr, htrail.notMem_of_isQuote hq]
    exact .quote h hq hnotMem
  | bracket h hi =>
    rw [List.append_assoc]
    exact .bracket h (hi.append (.of_isBlankRun htrail))

namespace Piece

/-- Blanks around a piece change its literal only as more characters in front do. -/
lemma literal_blanks {lead text trail : List Char} (hlead : IsBlankRun lead)
    (htrail : IsBlankRun trail) (offset : Nat) :
    literal ⟨lead ++ text ++ trail, offset⟩
      = literal ⟨text, offset + lead.length⟩ := by
  cases htoken : Token.ofText (trim text) with
  | literal x =>
    have hblanks := htoken
    rw [← trim_blanks hlead htrail] at hblanks
    rw [literal_of_ofText hblanks, literal_of_ofText htoken]
  | list content =>
    have hlist := @exists_isList_of_token ⟨text, offset + lead.length⟩ content htoken
    obtain ⟨start, rest, hstart, hrest, htext, hinner⟩ := hlist
    have hblanks : IsList ⟨lead ++ text ++ trail, offset⟩
        (offset + lead.length + start.length + 1) content := by
      refine ⟨lead ++ start, rest ++ trail, hlead.append hstart, hrest.append htrail, ?_, ?_⟩
      · change text = _ at htext
        simp [htext]
      · rw [List.length_append, Nat.add_assoc offset]
    rw [literal_of_isList hblanks,
      literal_of_isList ⟨start, rest, hstart, hrest, htext, rfl⟩]

end Piece

namespace Argument

/-- Blanks in front of a text are passed over. -/
lemma literalsFrom_blanks_append {lead : List Char} (hlead : IsBlankRun lead) (offset : Nat)
    (text : List Char) :
    literalsFrom offset (lead ++ text) = literalsFrom (offset + lead.length) text := by
  have hsplit := Piece.splitFrom_append ((Piece.Whole.of_isBlankRun hlead).splitFrom_eq offset) text
  rw [literalsFrom_eq, literalsFrom_eq, Piece.split, Piece.split, hsplit, Nat.add_right_comm]
  cases Piece.splitFrom [] none (offset + lead.length + 1) text with
  | error e => rfl
  | ok r =>
    obtain ⟨first, later⟩ := r
    have hfirst := @Piece.literal_blanks _ first _ hlead isBlankRun_nil offset
    rw [List.append_nil] at hfirst
    change (⟨lead ++ first, offset⟩ :: later).mapM Piece.literal
      = (⟨first, offset + lead.length⟩ :: later).mapM Piece.literal
    rw [List.mapM_cons, List.mapM_cons, hfirst]

/-- Blanks after a text belong to its last piece, and this keeps its literal. -/
lemma Cuts.append_blanks {offset : Nat} {text trail : List Char} {pieces : List Piece}
    (h : Cuts offset text pieces) (htrail : IsBlankRun trail) :
    ∃ pieces', Cuts offset (text ++ trail) pieces' ∧
      List.Forall₂ (fun p p' => Piece.literal p = Piece.literal p') pieces' pieces := by
  induction h with
  | @last offset text h =>
    have hwhole : Piece.Whole (text ++ trail) :=
      (Piece.whole_iff_onePiece.2 h).append (.of_isBlankRun htrail)
    refine ⟨_, .last (Piece.whole_iff_onePiece.1 hwhole), .cons ?_ .nil⟩
    exact Piece.literal_blanks isBlankRun_nil htrail offset
  | @cons offset first rest pieces h _ ih =>
    obtain ⟨pieces', hcuts, hpieces⟩ := ih
    rw [List.append_assoc, List.cons_append]
    exact ⟨_, .cons h hcuts, .cons rfl hpieces⟩

/-- Blanks after a text are passed over. -/
lemma literalsFrom_append_blanks {trail : List Char} (htrail : IsBlankRun trail) (offset : Nat)
    (text : List Char) : literalsFrom offset (text ++ trail) = literalsFrom offset text := by
  rcases nested_or_fault text with hnested | ⟨e, he⟩
  · obtain ⟨pieces, hsplit⟩ := (Piece.exists_split_iff_nested offset).2 hnested
    have hcuts := split_eq_ok_iff_cuts.1 hsplit
    obtain ⟨pieces', hcuts', hpieces⟩ := hcuts.append_blanks htrail
    rw [literalsFrom_of_cuts hcuts, literalsFrom_of_cuts hcuts', mapM_congr_forall₂ hpieces]
  · rw [literalsFrom_of_fault he, literalsFrom_of_fault (he.append_blanks htrail)]

/-- With blanks around it a text has the same literals, or the same error as many columns further
on as there are blanks in front. -/
theorem literals_blanks (lead text trail : String) (hlead : IsBlankRun lead.toList)
    (htrail : IsBlankRun trail.toList) :
    literals (lead ++ text ++ trail)
      = (literals text).mapError (ArgumentError.shift lead.length) := by
  rw [literals, String.toList_append, String.toList_append, literalsFrom_append_blanks htrail,
    literalsFrom_blanks_append hlead, literalsFrom_shift, String.length_toList, literals]

/-- Two kinds of blanks before a quote that is left open, and a blank behind it. -/
theorem literals_blanks_quote :
    IsBlankRun "\u2003\n".toList ∧ IsBlankRun " ".toList ∧
      literals "é, ['a" = .error (.openQuote '\'' 5) ∧
      literals ("\u2003\n" ++ "é, ['a" ++ " ") = .error (.openQuote '\'' 7) := by
  have hlead : IsBlankRun "\u2003\n".toList := by decide
  have htrail : IsBlankRun " ".toList := by decide
  have herror : literals "é, ['a" = .error (.openQuote '\'' 5) := by cbv
  refine ⟨hlead, htrail, herror, ?_⟩
  rw [literals_blanks _ _ _ hlead htrail, herror]
  rfl

/-! ### Separators -/

/-- A whole piece before a separator is the first argument, whatever is wrong with what follows. -/
lemma literalsFrom_whole_append {offset : Nat} {first : List Char} {x : Literal}
    (hw : Piece.Whole first) (hx : Piece.literal ⟨first, offset⟩ = .ok x) (rest : List Char) :
    literalsFrom offset (first ++ separator :: rest)
      = (literalsFrom (offset + first.length + 1) rest).map (x :: ·) := by
  rw [literalsFrom_eq, literalsFrom_eq, hw.split_append]
  cases Piece.split (offset + first.length + 1) rest with
  | error e => rfl
  | ok pieces =>
    change (⟨first, offset⟩ :: pieces).mapM Piece.literal = (pieces.mapM Piece.literal).map (x :: ·)
    rw [List.mapM_cons, hx]
    cases pieces.mapM Piece.literal <;> rfl

/-- The literals of a text come before those of what follows after a separator. -/
lemma Reads.literalsFrom_append {offset : Nat} {text : List Char} {xs : List Literal}
    (h : Reads offset text xs) (rest : List Char) :
    literalsFrom offset (text ++ separator :: rest)
      = (literalsFrom (offset + text.length + 1) rest).map (xs ++ ·) := by
  induction h with
  | last hw hx => exact literalsFrom_whole_append hw hx rest
  | @cons offset first text x xs hw hx _ ih =>
    have hlength : offset + (first ++ separator :: text).length
        = offset + first.length + 1 + text.length := by
      rw [List.length_append, List.length_cons]
      omega
    rw [List.append_assoc, List.cons_append, literalsFrom_whole_append hw hx, ih, hlength]
    cases literalsFrom (offset + first.length + 1 + text.length + 1) rest <;> rfl

/-- A comma between two texts, of which the first has literals. -/
lemma literals_append_comma {a : String} {xs : List Literal} (h : literals a = .ok xs)
    (b : String) :
    literals (a ++ "," ++ b)
      = ((literals b).map (xs ++ ·)).mapError (ArgumentError.shift (a.length + 1)) := by
  have hlist : (a ++ "," ++ b).toList = a.toList ++ separator :: b.toList := by simp
  rw [literals, hlist, (literalsFrom_eq_ok_iff.1 h).literalsFrom_append, Nat.add_assoc,
    literalsFrom_shift, String.length_toList, ← literals]
  cases literals b <;> rfl

/-- A comma between two texts, of which the first has literals, joins these with the literals of the
second, or gives the error of the second as many columns further on as there are characters before
it. Several texts with literals have the literals of all of them when commas stand between them. -/
theorem literals_joined :
    (∀ (a b : String) (xs : List Literal), literals a = .ok xs →
      literals (a ++ "," ++ b)
        = ((literals b).map (xs ++ ·)).mapError (ArgumentError.shift (a.length + 1))) ∧
    ∀ (texts : List String) (values : List (List Literal)), texts ≠ [] →
      List.Forall₂ (fun text xs => literals text = .ok xs) texts values →
        literals (",".intercalate texts) = .ok values.flatten := by
  refine ⟨fun a b xs h => literals_append_comma h b, ?_⟩
  intro texts values hne h
  induction h with
  | nil => exact absurd rfl hne
  | @cons text xs texts values hx hrest ih =>
    cases texts with
    | nil =>
      cases hrest
      rw [String.intercalate_singleton, List.flatten_singleton, hx]
    | cons next texts =>
      rw [String.intercalate_cons_cons, literals_append_comma hx, ih (List.cons_ne_nil _ _)]
      rfl

/-- A quoted run in the middle of a string, an empty text, and a list that is closed early. -/
theorem literals_joined_early :
    literals "'a,' 'b'" = .ok [.string "a,' 'b"] ∧
      literals "[1]2[3]" = .error (.strayBracket 3) ∧
      literals ("'a,' 'b'" ++ "," ++ "[1]2[3]") = .error (.strayBracket 12) ∧
      literals "" = .ok [.string ""] ∧ literals "x,y" = .ok [.string "x", .string "y"] ∧
      literals (",".intercalate ["x,y", "", "'a,' 'b'"])
        = .ok [.string "x", .string "y", .string "", .string "a,' 'b"] := by
  have hquoted : literals "'a,' 'b'" = .ok [.string "a,' 'b"] := by cbv
  have hearly : literals "[1]2[3]" = .error (.strayBracket 3) := by cbv
  have hempty : literals "" = .ok [.string ""] := by cbv
  have hwords : literals "x,y" = .ok [.string "x", .string "y"] := by cbv
  refine ⟨hquoted, hearly, ?_, hempty, hwords, ?_⟩
  · rw [literals_joined.1 _ _ _ hquoted, hearly]
    rfl
  · exact literals_joined.2 _ _ (by simp) (.cons hwords (.cons hempty (.cons hquoted .nil)))

/-! ### Brackets -/

/-- A text between brackets. -/
def bracketed (text : String) : String :=
  "[" ++ text ++ "]"

lemma toList_bracketed (text : String) :
    (bracketed text).toList = listOpen :: text.toList ++ [listClose] := by
  simp [bracketed]

lemma not_isBlankRun_bracketed (text : String) : ¬IsBlankRun (bracketed text).toList := by
  intro h
  have hopen := h listOpen (by simp [toList_bracketed])
  revert hopen
  decide

/-- A text with literals spells their list when it stands between brackets. -/
lemma spells_bracketed {text : String} {xs : List Literal} (h : literals text = .ok xs) :
    Spells (bracketed text).toList (.list (if IsBlankRun text.toList then [] else xs)) := by
  rw [toList_bracketed]
  split_ifs with hblank
  · exact .emptyList hblank
  · exact .list hblank fun offset => literalsFrom_eq_ok_iff.1 (literalsFrom_of_literals h offset)

/-- A text with literals has one literal when it stands between brackets: the list of its literals,
which is empty for a blank text. Between `n` pairs of brackets the literals of any other text stand
in `n` lists. -/
theorem literals_bracketed (text : String) (xs : List Literal) (h : literals text = .ok xs) :
    literals (bracketed text) = .ok [.list (if IsBlankRun text.toList then [] else xs)] ∧
    (¬IsBlankRun text.toList → ∀ n,
      literals (bracketed^[n] text) = .ok ((fun ys => [.list ys])^[n] xs)) := by
  refine ⟨literals_of_spells (spells_bracketed h), ?_⟩
  intro hblank n
  -- the text with its first brackets is not blank either
  suffices literals (bracketed^[n] text) = .ok ((fun ys => [.list ys])^[n] xs) ∧
      ¬IsBlankRun (bracketed^[n] text).toList from this.1
  induction n with
  | zero => exact ⟨h, hblank⟩
  | succ n ih =>
    obtain ⟨ih, hn⟩ := ih
    rw [Function.iterate_succ_apply', Function.iterate_succ_apply']
    refine ⟨?_, not_isBlankRun_bracketed _⟩
    rw [literals_of_spells (spells_bracketed ih), if_neg hn]

/-- Brackets around blanks, and three pairs of brackets around a quoted bracket and an empty
string. -/
theorem literals_bracketed_three :
    literals " " = .ok [.string ""] ∧ literals "[ ]" = .ok [.list []] ∧
      literals "']'," = .ok [.string "]", .string ""] ∧ ¬IsBlankRun "']',".toList ∧
      literals "[[[']',]]]" = .ok [.list [.list [.list [.string "]", .string ""]]]] := by
  have hspace : literals " " = .ok [.string ""] := by cbv
  have hquoted : literals "']'," = .ok [.string "]", .string ""] := by cbv
  have hblank : ¬IsBlankRun "']',".toList := by decide
  exact ⟨hspace, (literals_bracketed _ _ hspace).1, hquoted, hblank,
    (literals_bracketed _ _ hquoted).2 hblank 3⟩

end Argument

end FormatExpr
