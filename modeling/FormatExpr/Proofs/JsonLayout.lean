import FormatExpr.Json.Draft
import FormatExpr.Proofs.JsonNumeral

/-!
# Layouts of JSON values

A JSON tree is a value as it is written: numbers by their numerals, and strings by the spellings of
their characters. A tree has many layouts, since white space may stand around every value, key and
mark, and a character may be spelled by an escape (`Json.Tree.Layout`).

Whatever the layout, the text is read to its end and gives the draft of the tree
(`Json.Tree.WrittenAs.ofText_eq`). The proof is an induction over the layout: what is written for a
tree is read as its draft inside any containers, and so is what is written for the items of a list
or the members of a map.
-/

namespace FormatExpr.Json

open Numeral

/-- A JSON value as it is written. -/
inductive Tree where
  | null
  | boolean (b : Bool)
  | number (n : Numeral)
  | string (spellings : List Token.Spelling)
  | list (items : List Tree)
  | map (members : List (List Token.Spelling × Tree))
  deriving Repr, Inhabited

namespace Tree

/-- To show something of every tree it is enough to show it of lists and maps when it holds of
their parts, and of everything else. -/
@[elab_as_elim, induction_eliminator]
theorem ind {motive : Tree → Prop} (null : motive null) (boolean : ∀ b, motive (boolean b))
    (number : ∀ n, motive (number n)) (string : ∀ spellings, motive (string spellings))
    (list : ∀ items, (∀ x ∈ items, motive x) → motive (list items))
    (map : ∀ members, (∀ m ∈ members, motive m.2) → motive (map members)) (x : Tree) :
    motive x :=
  match x with
  | .null => null
  | .boolean b => boolean b
  | .number n => number n
  | .string spellings => string spellings
  | .list items => list items fun x _ => ind null boolean number string list map x
  | .map members => map members fun m _ => ind null boolean number string list map m.2
decreasing_by
  · have := List.sizeOf_lt_of_mem ‹_ ∈ items›
    simp only [Tree.list.sizeOf_spec]
    omega
  · have := List.sizeOf_lt_of_mem ‹_ ∈ members›
    cases m
    simp only [Tree.map.sizeOf_spec, Prod.mk.sizeOf_spec] at this ⊢
    omega

/-! ### Drafts -/

mutual

/-- The draft that a tree is read as. -/
def draft : Tree → Draft
  | null => .null
  | boolean b => .boolean b
  | number n => .number n.value?
  | string spellings => .string ((Token.join spellings).map String.ofList)
  | list items => .list (itemDrafts items)
  | map members => .map (memberDrafts members)

/-- The drafts of several trees. -/
def itemDrafts : List Tree → List Draft
  | [] => []
  | x :: xs => x.draft :: itemDrafts xs

/-- The drafts of several members. -/
def memberDrafts : List (List Token.Spelling × Tree) → List (Option String × Draft)
  | [] => []
  | (key, x) :: members => ((Token.join key).map String.ofList, x.draft) :: memberDrafts members

end

/-! ### Layouts -/

/-- A run of white space. -/
def IsSpaceRun (cs : List Char) : Prop :=
  ∀ c ∈ cs, Token.isSpace c = true

/-- The texts that a character of a string may be written as. -/
inductive SpellingLayout : Token.Spelling → List Char → Prop where
  | char {c : Char} (hlow : ¬c.toNat < 0x20) (hquote : c ≠ '"') (hescape : c ≠ '\\') :
      SpellingLayout (.char c) [c]
  | escape {c d : Char} (h : Token.escape? c = some d) : SpellingLayout (.char d) ['\\', c]
  | unit {a b c d : Char} {u : Nat} (h : Token.hexUnit? a b c d = some u) :
      SpellingLayout (.unit u) ['\\', 'u', a, b, c, d]

/-- The texts that the characters of a string may be written as. -/
inductive SpellingLayouts : List Token.Spelling → List Char → Prop where
  | nil : SpellingLayouts [] []
  | cons {s : Token.Spelling} {later : List Token.Spelling} {text rest : List Char}
      (h : SpellingLayout s text) (hrest : SpellingLayouts later rest) :
      SpellingLayouts (s :: later) (text ++ rest)

/-- The texts that a string may be written as. -/
inductive StringLayout : List Token.Spelling → List Char → Prop where
  | mk {spellings : List Token.Spelling} {text : List Char} (h : SpellingLayouts spellings text) :
      StringLayout spellings ('"' :: text ++ ['"'])

mutual

/-- The texts that a tree may be written as, without white space around them. -/
inductive Layout : Tree → List Char → Prop where
  | null : Layout null "null".toList
  | boolean (b : Bool) : Layout (boolean b) (if b then "true".toList else "false".toList)
  | number {n : Numeral} {text : List Char} (h : n.Layout text) : Layout (number n) text
  | string {spellings : List Token.Spelling} {text : List Char} (h : StringLayout spellings text) :
      Layout (string spellings) text
  | emptyList {space : List Char} (h : IsSpaceRun space) : Layout (list []) ('[' :: space ++ [']'])
  | list {items : List Tree} {text : List Char} (h : ItemLayouts items text) :
      Layout (list items) ('[' :: text ++ [']'])
  | emptyMap {space : List Char} (h : IsSpaceRun space) : Layout (map []) ('{' :: space ++ ['}'])
  | map {members : List (List Token.Spelling × Tree)} {text : List Char}
      (h : MemberLayouts members text) : Layout (map members) ('{' :: text ++ ['}'])

/-- The texts that the items of a list may be written as: a comma stands between neighbours, and
white space may stand around each of them. -/
inductive ItemLayouts : List Tree → List Char → Prop where
  | last {x : Tree} {lead text trail : List Char} (hlead : IsSpaceRun lead) (h : Layout x text)
      (htrail : IsSpaceRun trail) : ItemLayouts [x] (lead ++ text ++ trail)
  | cons {x : Tree} {xs : List Tree} {lead text trail rest : List Char} (hlead : IsSpaceRun lead)
      (h : Layout x text) (htrail : IsSpaceRun trail) (hrest : ItemLayouts xs rest) :
      ItemLayouts (x :: xs) (lead ++ text ++ trail ++ ',' :: rest)

/-- The texts that the members of a map may be written as: a colon stands behind each key, a comma
between neighbours, and white space may stand around each key and value. -/
inductive MemberLayouts : List (List Token.Spelling × Tree) → List Char → Prop where
  | last {key : List Token.Spelling} {x : Tree} {before keyText after lead text trail : List Char}
      (hbefore : IsSpaceRun before) (hkey : StringLayout key keyText) (hafter : IsSpaceRun after)
      (hlead : IsSpaceRun lead) (h : Layout x text) (htrail : IsSpaceRun trail) :
      MemberLayouts [(key, x)] (before ++ keyText ++ after ++ ':' :: (lead ++ text ++ trail))
  | cons {key : List Token.Spelling} {x : Tree} {members : List (List Token.Spelling × Tree)}
      {before keyText after lead text trail rest : List Char} (hbefore : IsSpaceRun before)
      (hkey : StringLayout key keyText) (hafter : IsSpaceRun after) (hlead : IsSpaceRun lead)
      (h : Layout x text) (htrail : IsSpaceRun trail) (hrest : MemberLayouts members rest) :
      MemberLayouts ((key, x) :: members)
        (before ++ keyText ++ after ++ ':' :: (lead ++ text ++ trail ++ ',' :: rest))

end

end Tree

/-! ### Reading tokens -/

namespace Token

/-- The tokens of a text, without the proof that there are finitely many. -/
lemma readAll_eq (cs : List Char) :
    readAll cs = if (skipSpace cs).isEmpty then []
      else
        match read (skipSpace cs) with
        | none => [fault]
        | some (t, rest) => t :: readAll rest := by
  rw [readAll]
  split_ifs
  · rfl
  · split <;> simp_all

/-- No token begins with white space. -/
lemma isSpace_of_read {c : Char} {cs rest : List Char} {t : Token}
    (h : read (c :: cs) = some (t, rest)) : isSpace c = false := by
  by_contra hspace
  rw [Bool.not_eq_false] at hspace
  simp only [isSpace, Bool.or_eq_true, beq_iff_eq] at hspace
  rcases hspace with ((rfl | rfl) | rfl) | rfl <;>
    simp [read, Numeral.read, Numeral.readWhole, Numeral.readDigits, Numeral.splitMinus] at h

lemma readAll_of_read {cs rest : List Char} {t : Token} (h : read cs = some (t, rest)) :
    readAll cs = t :: readAll rest := by
  cases cs with
  | nil =>
    simp [read, Numeral.read, Numeral.readWhole, Numeral.readDigits, Numeral.splitMinus] at h
  | cons c cs =>
    have hskip : skipSpace (c :: cs) = c :: cs := by simp [skipSpace, isSpace_of_read h]
    rw [readAll_eq, hskip, if_neg (by simp), h]

lemma readAll_nil : readAll [] = [] := by
  rw [readAll_eq]
  rfl

/-- White space before a token makes no difference. -/
lemma readAll_space_append {space : List Char} (h : Tree.IsSpaceRun space) (cs : List Char) :
    readAll (space ++ cs) = readAll cs := by
  have hskip : skipSpace (space ++ cs) = skipSpace cs := List.dropWhile_append_of_pos h
  rw [readAll_eq, hskip, ← readAll_eq]

/-! ### One token -/

lemma readAll_openList (cs : List Char) : readAll ('[' :: cs) = openList :: readAll cs :=
  readAll_of_read rfl

lemma readAll_closeList (cs : List Char) : readAll (']' :: cs) = closeList :: readAll cs :=
  readAll_of_read rfl

lemma readAll_openMap (cs : List Char) : readAll ('{' :: cs) = openMap :: readAll cs :=
  readAll_of_read rfl

lemma readAll_closeMap (cs : List Char) : readAll ('}' :: cs) = closeMap :: readAll cs :=
  readAll_of_read rfl

lemma readAll_comma (cs : List Char) : readAll (',' :: cs) = comma :: readAll cs :=
  readAll_of_read rfl

lemma readAll_colon (cs : List Char) : readAll (':' :: cs) = colon :: readAll cs :=
  readAll_of_read rfl

/-- A text that begins with a digit or a minus begins with a numeral, if with any token. -/
lemma read_of_numeral {c : Char} (hc : c.isDigit = true ∨ c = '-') (cs : List Char) :
    read (c :: cs)
      = (Numeral.read (c :: cs)).bind fun (n, rest) => some (number n.value?, rest) := by
  rw [read.eq_def]
  split
  case h_11 => rfl
  all_goals
    rename_i heq
    cases heq
    exact absurd hc (by decide)

end Token

lemma Numeral.Layout.exists_eq_cons {n : Numeral} {text : List Char} (h : n.Layout text) :
    ∃ c cs, text = c :: cs ∧ (c.isDigit = true ∨ c = '-') := by
  obtain @⟨negative, whole, _, _, _, _, hw, -, -, -⟩ := h
  cases negative with
  | true => exact ⟨'-', _, rfl, .inr rfl⟩
  | false =>
    obtain ⟨hne, hdigits⟩ := Text.isDigits_iff.1 hw
    obtain ⟨c, cs, rfl⟩ := List.exists_cons_of_ne_nil hne
    exact ⟨c, _, rfl, .inl (hdigits c List.mem_cons_self)⟩

namespace Token

lemma read_number {n : Numeral} {text rest : List Char} (h : n.Layout text)
    (hrest : EndsBefore rest) : read (text ++ rest) = some (number n.value?, rest) := by
  have hread := h.read_append hrest
  obtain ⟨c, cs, rfl, hc⟩ := h.exists_eq_cons
  rw [List.cons_append] at hread ⊢
  rw [read_of_numeral hc, hread]
  rfl

lemma readSpellings_append {s : Spelling} {text rest after : List Char} {later : List Spelling}
    (h : Tree.SpellingLayout s text) (hrest : readSpellings rest = some (later, after)) :
    readSpellings (text ++ rest) = some (s :: later, after) := by
  cases h with
  | char hlow hquote hescape =>
    rw [List.singleton_append, readSpellings.eq_def]
    simp [hescape, hlow, hrest]
  | @escape c d h =>
    have hc : c ≠ 'u' := by
      rintro rfl
      cases h
    rw [List.cons_append, List.singleton_append, readSpellings.eq_def]
    simp [hc, h, hrest]
  | unit h => simp [readSpellings, h, hrest]

lemma readSpellings_string {spellings : List Spelling} {text : List Char}
    (h : Tree.SpellingLayouts spellings text) (rest : List Char) :
    readSpellings (text ++ '"' :: rest) = some (spellings, rest) := by
  induction h with
  | nil => rfl
  | cons h _ ih => rw [List.append_assoc, readSpellings_append h ih]

lemma read_string {spellings : List Spelling} {text : List Char}
    (h : Tree.StringLayout spellings text) (rest : List Char) :
    read (text ++ rest) = some (string ((join spellings).map String.ofList), rest) := by
  obtain ⟨h⟩ := h
  rw [List.append_assoc, List.singleton_append, List.cons_append, read, readSpellings_string h rest]
  rfl

end Token

/-! ### Reading drafts -/

namespace Tree

open Draft FormatExpr.Json.Token

lemma endsBefore_space_append {space rest : List Char} (h : IsSpaceRun space)
    (hrest : EndsBefore rest) : EndsBefore (space ++ rest) := by
  cases space with
  | nil => exact hrest
  | cons c cs =>
    rintro _ ⟨⟩
    have hc := h c List.mem_cons_self
    simp only [isSpace, Bool.or_eq_true, beq_iff_eq] at hc
    rcases hc with ((rfl | rfl) | rfl) | rfl <;> decide

/-- What is written for a tree does not begin with a bracket that closes a list. -/
lemma Layout.exists_readAll_eq_cons {x : Tree} {text rest : List Char} (h : Layout x text)
    (hrest : EndsBefore rest) : ∃ t ts, readAll (text ++ rest) = t :: ts ∧ t ≠ .closeList := by
  cases h with
  | number h => exact ⟨_, _, readAll_of_read (read_number h hrest), by simp⟩
  | string h => exact ⟨_, _, readAll_of_read (read_string h rest), by simp⟩
  | boolean b => cases b <;> exact ⟨_, _, readAll_of_read rfl, by simp⟩
  | _ => exact ⟨_, _, readAll_of_read rfl, by simp⟩

lemma ItemLayouts.exists_readAll_eq_cons {items : List Tree} {text rest : List Char}
    (h : ItemLayouts items text) (hrest : EndsBefore rest) :
    ∃ t ts, readAll (text ++ rest) = t :: ts ∧ t ≠ .closeList := by
  cases h with
  | last hlead h htrail =>
    rw [List.append_assoc, List.append_assoc, readAll_space_append hlead]
    exact h.exists_readAll_eq_cons (endsBefore_space_append htrail hrest)
  | @cons _ _ _ _ _ later hlead h htrail _ =>
    have hcomma : EndsBefore (',' :: (later ++ rest)) := by simp [EndsBefore]
    rw [List.append_assoc, List.append_assoc, List.append_assoc, readAll_space_append hlead]
    exact h.exists_readAll_eq_cons (endsBefore_space_append htrail hcomma)

lemma readAll_key {key : List Spelling} {before keyText after : List Char}
    (hbefore : IsSpaceRun before) (hkey : StringLayout key keyText) (hafter : IsSpaceRun after)
    (cs : List Char) : readAll (before ++ (keyText ++ (after ++ ':' :: cs)))
      = .string ((join key).map String.ofList) :: .colon :: readAll cs := by
  rw [readAll_space_append hbefore, readAll_of_read (read_string hkey _),
    readAll_space_append hafter, readAll_colon]

lemma readValue_openList {t : Token} (h : t ≠ .closeList) (frames : List Frame)
    (ts : List Token) :
    readValue frames (.openList :: t :: ts) = readValue (.list [] :: frames) (t :: ts) := by
  cases t with
  | closeList => exact absurd rfl h
  | _ => rfl

mutual

/-- What is written for a tree is read as its draft, inside any containers. -/
theorem Layout.readValue_append {x : Tree} {text rest : List Char} (h : Layout x text)
    (hrest : EndsBefore rest) (frames : List Frame) :
    readValue frames (readAll (text ++ rest)) = resume frames x.draft (readAll rest) :=
  match h with
  | .null => by rw [readAll_of_read rfl]; rfl
  | .boolean true => by rw [readAll_of_read rfl]; rfl
  | .boolean false => by rw [readAll_of_read rfl]; rfl
  | .number h => by rw [readAll_of_read (read_number h hrest)]; rfl
  | .string h => by rw [readAll_of_read (read_string h rest)]; rfl
  | .emptyList h => by
    rw [List.append_assoc, List.singleton_append, List.cons_append, readAll_openList,
      readAll_space_append h, readAll_closeList]
    rfl
  | .list h => by
    rename_i items body
    have hclose : EndsBefore (']' :: rest) := by simp [EndsBefore]
    obtain ⟨t, ts, htokens, ht⟩ := h.exists_readAll_eq_cons hclose
    have hread := h.readValue_append [] frames rest
    rw [htokens, ← readValue_openList ht, ← htokens, ← readAll_openList] at hread
    rw [List.append_assoc]
    exact hread
  | .emptyMap h => by
    rw [List.append_assoc, List.singleton_append, List.cons_append, readAll_openMap,
      readAll_space_append h, readAll_closeMap]
    rfl
  | .map h => by
    obtain ⟨key, tokens, htokens, hread⟩ := h.readValue_append rest
    rw [List.append_assoc, List.singleton_append, List.cons_append, readAll_openMap, htokens]
    exact hread [] frames

/-- What is written for the items of a list is read after the items that came before. -/
theorem ItemLayouts.readValue_append {items : List Tree} {text : List Char}
    (h : ItemLayouts items text) (before : List Draft) (frames : List Frame) (rest : List Char) :
    readValue (.list before :: frames) (readAll (text ++ ']' :: rest))
      = resume frames (.list (before.reverse ++ itemDrafts items)) (readAll rest) :=
  match h with
  | .last hlead h htrail => by
    have hclose : EndsBefore (']' :: rest) := by simp [EndsBefore]
    have hread :=
      h.readValue_append (endsBefore_space_append htrail hclose) (.list before :: frames)
    rw [List.append_assoc, List.append_assoc, readAll_space_append hlead, hread,
      readAll_space_append htrail, readAll_closeList, resume, Frame.close, List.reverse_cons]
    rfl
  | @ItemLayouts.cons x _ _ _ _ later hlead h htrail hlater => by
    have hcomma : EndsBefore (',' :: (later ++ ']' :: rest)) := by simp [EndsBefore]
    have hread :=
      h.readValue_append (endsBefore_space_append htrail hcomma) (.list before :: frames)
    have hnext := hlater.readValue_append (x.draft :: before) frames rest
    rw [List.append_assoc, List.append_assoc, List.append_assoc, List.cons_append,
      readAll_space_append hlead, hread, readAll_space_append htrail, readAll_comma, resume, hnext,
      List.reverse_cons, List.append_assoc]
    rfl

/-- What is written for the members of a map begins with a key, and what is behind it is read after
the members that came before. -/
theorem MemberLayouts.readValue_append {members : List (List Spelling × Tree)} {text : List Char}
    (h : MemberLayouts members text) (rest : List Char) :
    ∃ key tokens, readAll (text ++ '}' :: rest) = .string key :: .colon :: tokens ∧
      ∀ before frames, readValue (.map before key :: frames) tokens
        = resume frames (.map (before.reverse ++ memberDrafts members)) (readAll rest) :=
  match h with
  | .last hbefore hkey hafter hlead h htrail => by
    have hclose : EndsBefore ('}' :: rest) := by simp [EndsBefore]
    have hread := h.readValue_append (endsBefore_space_append htrail hclose)
    simp only [List.append_assoc, List.cons_append]
    refine ⟨_, _, readAll_key hbefore hkey hafter _, fun before frames => ?_⟩
    rw [readAll_space_append hlead, hread, readAll_space_append htrail, readAll_closeMap, resume,
      Frame.close, List.reverse_cons]
    rfl
  | @MemberLayouts.cons key x _ _ _ _ _ _ _ later hbefore hkey hafter hlead h htrail hlater => by
    have hcomma : EndsBefore (',' :: (later ++ '}' :: rest)) := by simp [EndsBefore]
    have hread := h.readValue_append (endsBefore_space_append htrail hcomma)
    obtain ⟨next, tokens, htokens, hnext⟩ := hlater.readValue_append rest
    simp only [List.append_assoc, List.cons_append]
    refine ⟨_, _, readAll_key hbefore hkey hafter _, fun before frames => ?_⟩
    rw [readAll_space_append hlead, hread, readAll_space_append htrail, readAll_comma, htokens,
      resume, hnext, List.reverse_cons, List.append_assoc]
    rfl

end

/-- The text is a layout of the tree with any white space around it. -/
inductive WrittenAs : Tree → String → Prop where
  | mk {x : Tree} {lead core trail : List Char} {text : String} (hlead : IsSpaceRun lead)
      (h : Layout x core) (htrail : IsSpaceRun trail)
      (htext : text.toList = lead ++ core ++ trail) : WrittenAs x text

/-- A text is read to its end as the draft of the tree that it is written for. -/
theorem WrittenAs.ofText_eq {x : Tree} {text : String} (h : x.WrittenAs text) :
    Draft.ofText text = (x.draft, false) := by
  obtain ⟨hlead, h, htrail, htext⟩ := h
  have hend : EndsBefore [] := by simp [EndsBefore]
  have htrailing := endsBefore_space_append htrail hend
  have hrest := readAll_space_append htrail []
  rw [List.append_nil] at htrailing hrest
  rw [ofText, htext, List.append_assoc, readAll_space_append hlead,
    h.readValue_append htrailing, hrest, readAll_nil]
  rfl

end Tree

end FormatExpr.Json
