import FormatExpr.Proofs.Decoding
import FormatExpr.Proofs.LiteralText
import FormatExpr.Proofs.Nearest

/-!
# Layouts of arguments

An argument tree is what a writer of an expression has in mind: quoted strings, booleans, numbers
by their digits, bare words, and lists of such. A tree has many layouts, since any blanks may stand
around every argument and every element of a list, and one value (`Argument.Tree.Denotes`).

Whatever the layout, decoding gives the values of the trees (`Argument.literals_of_layouts`). The
proof is an induction over trees: what is laid out for a tree is one piece of argument text, and the
literal of that piece is the value of the tree, wherever it stands and with any blanks around it
(`Argument.Spells`).
-/

namespace FormatExpr

namespace Sign

/-- Every text is what is left without its sign, after that sign. -/
lemma exists_of_splitSign {word unsigned : List Char} {negative : Bool}
    (h : Text.splitSign word = (negative, unsigned)) : ∃ s : Sign, word = s.text ++ unsigned := by
  rcases Token.eq_of_splitSign h with rfl | rfl | rfl
  · exact ⟨none, rfl⟩
  · exact ⟨minus, rfl⟩
  · exact ⟨plus, rfl⟩

end Sign

namespace Argument

open Text

/-! ### Trees -/

/-- An argument as it is meant. -/
inductive Tree where
  | quoted (mark : Char) (content : List Char)
  | boolean (b : Bool)
  | integer (sign : Sign) (digits : List Char)
  | decimal (sign : Sign) (whole fraction : List Char)
  | bare (word : List Char)
  | list (items : List Tree)

namespace Tree

/-- To show something of every tree it is enough to show it of a list when it holds of the
elements, and of everything that is no list. -/
@[elab_as_elim, induction_eliminator]
theorem ind {motive : Tree → Prop} (quoted : ∀ mark content, motive (quoted mark content))
    (boolean : ∀ b, motive (boolean b)) (integer : ∀ sign digits, motive (integer sign digits))
    (decimal : ∀ sign whole fraction, motive (decimal sign whole fraction))
    (bare : ∀ word, motive (bare word))
    (list : ∀ items, (∀ x ∈ items, motive x) → motive (list items)) (x : Tree) : motive x :=
  match x with
  | .quoted mark content => quoted mark content
  | .boolean b => boolean b
  | .integer sign digits => integer sign digits
  | .decimal sign whole fraction => decimal sign whole fraction
  | .bare word => bare word
  | .list items =>
    list items fun x _ => ind quoted boolean integer decimal bare list x

/-- The tree can be told from its layouts: a string does not hold its own quote character, numbers
have digits, a bare word is not taken for anything else, and no list has the empty bare word as its
only element. -/
inductive WellFormed : Tree → Prop where
  | quoted {mark : Char} {content : List Char} (hq : isQuote mark = true) (hc : mark ∉ content) :
      WellFormed (quoted mark content)
  | boolean (b : Bool) : WellFormed (boolean b)
  | integer {sign : Sign} {digits : List Char} (h : isDigits digits = true) :
      WellFormed (integer sign digits)
  | decimal {sign : Sign} {whole fraction : List Char} (hw : isDigits whole = true)
      (hf : isDigits fraction = true) : WellFormed (decimal sign whole fraction)
  | bare {word : List Char}
      (hplain : ∀ c ∈ word, isQuote c = false ∧ c ≠ '[' ∧ c ≠ ']' ∧ c ≠ ',') (ht : IsTight word)
      (hbool : word ≠ "true".toList ∧ word ≠ "false".toList)
      (hint : ∀ (sign : Sign) digits, isDigits digits = true → word ≠ sign.text ++ digits)
      (hdec : ∀ (sign : Sign) whole fraction, isDigits whole = true → isDigits fraction = true →
        word ≠ sign.text ++ (whole ++ '.' :: fraction)) : WellFormed (bare word)
  | list {items : List Tree} (h : ∀ x ∈ items, WellFormed x) (hne : items ≠ [.bare []]) :
      WellFormed (list items)

mutual

/-- The texts that a tree may be laid out as, without blanks around them. -/
inductive Layout : Tree → List Char → Prop where
  | quoted (mark : Char) (content : List Char) :
      Layout (quoted mark content) (mark :: content ++ [mark])
  | boolean (b : Bool) : Layout (boolean b) (if b then "true".toList else "false".toList)
  | integer (sign : Sign) (digits : List Char) : Layout (integer sign digits) (sign.text ++ digits)
  | decimal (sign : Sign) (whole fraction : List Char) :
      Layout (decimal sign whole fraction) (sign.text ++ (whole ++ '.' :: fraction))
  | bare (word : List Char) : Layout (bare word) word
  | emptyList {blanks : List Char} (h : IsBlankRun blanks) :
      Layout (list []) ('[' :: blanks ++ [']'])
  | list {items : List Tree} {text : List Char} (h : Layouts items text) :
      Layout (list items) ('[' :: text ++ [']'])

/-- The texts that several trees may be laid out as: a comma stands between neighbours, and blanks
may stand around each of them. -/
inductive Layouts : List Tree → List Char → Prop where
  | last {x : Tree} {lead text trail : List Char} (hlead : IsBlankRun lead) (h : Layout x text)
      (htrail : IsBlankRun trail) : Layouts [x] (lead ++ text ++ trail)
  | cons {x : Tree} {xs : List Tree} {lead text trail rest : List Char} (hlead : IsBlankRun lead)
      (h : Layout x text) (htrail : IsBlankRun trail) (hrest : Layouts xs rest) :
      Layouts (x :: xs) (lead ++ text ++ trail ++ ',' :: rest)

end

/-- The literal is the value of the tree. An integer of 64 bits is held as it is, a larger one as
the nearest floating point number, and so is a decimal. -/
inductive Denotes : Tree → Literal → Prop where
  | quoted (mark : Char) (content : List Char) :
      Denotes (quoted mark content) (.string (String.ofList content))
  | boolean (b : Bool) : Denotes (boolean b) (.boolean b)
  | integer {sign : Sign} {digits : List Char} {i : Int64}
      (h : i.toInt = sign.apply (value digits)) :
      Denotes (integer sign digits) (.number (.integer i))
  | largeInteger {sign : Sign} {digits : List Char} {x : Binary64}
      (h : ¬(-2 ^ 63 ≤ sign.apply (value digits) ∧ sign.apply (value digits) < 2 ^ 63))
      (hx : x.RoundedFrom sign.isMinus (value digits) 1) :
      Denotes (integer sign digits) (.number (.float x))
  | decimal {sign : Sign} {whole fraction : List Char} {x : Binary64}
      (hx : x.RoundedFrom sign.isMinus (value (whole ++ fraction)) (10 ^ fraction.length)) :
      Denotes (decimal sign whole fraction) (.number (.float x))
  | bare (word : List Char) : Denotes (bare word) (.string (String.ofList word))
  | list {items : List Tree} {xs : List Literal} (h : List.Forall₂ Denotes items xs) :
      Denotes (list items) (.list xs)

/-- A tree has one value. -/
theorem Denotes.unique {x : Tree} {y y' : Literal} (h : x.Denotes y) (h' : x.Denotes y') :
    y = y' := by
  induction x generalizing y y' with
  | quoted mark content =>
    cases h
    cases h'
    rfl
  | boolean b =>
    cases h
    cases h'
    rfl
  | integer sign digits =>
    cases h with
    | @integer _ _ i hi =>
      cases h' with
      | integer hj => rw [Int64.toInt_inj.1 (hi.trans hj.symm)]
      | largeInteger hlarge _ => exact absurd (hi ▸ ⟨i.le_toInt, i.toInt_lt⟩) hlarge
    | largeInteger hlarge hx =>
      cases h' with
      | @integer _ _ i hi => exact absurd (hi ▸ ⟨i.le_toInt, i.toInt_lt⟩) hlarge
      | largeInteger _ hx' => rw [hx.unique Nat.one_pos hx']
  | decimal sign whole fraction =>
    cases h with
    | decimal hx =>
      cases h' with
      | decimal hx' =>
        have hden : 0 < 10 ^ fraction.length := by positivity
        rw [hx.unique hden hx']
  | bare word =>
    cases h
    cases h'
    rfl
  | list items ih =>
    cases h with
    | @list _ ys h =>
      cases h' with
      | @list _ ys' h' =>
        congr 1
        induction items generalizing ys ys' with
        | nil =>
          cases h
          cases h'
          rfl
        | cons x items ihitems =>
          obtain ⟨ihx, ih⟩ := List.forall_mem_cons.1 ih
          cases h with
          | cons hy hys =>
            cases h' with
            | cons hy' hys' => rw [ihx hy hy', ihitems ih hys hys']

end Tree

/-! ### What is read from a layout -/

/-- The text is one piece without blanks at its ends, and with any blanks around it this piece has
`x` as its literal. -/
structure Spells (text : List Char) (x : Literal) : Prop where
  whole : Piece.Whole text
  tight : IsTight text
  literal : ∀ {lead trail : List Char} (offset : Nat), IsBlankRun lead → IsBlankRun trail →
    Piece.literal ⟨lead ++ text ++ trail, offset⟩ = .ok x

/-! ### Texts that spell a literal -/

namespace Spells

lemma of_token {text : List Char} {x : Literal} (hw : Piece.Whole text) (htight : IsTight text)
    (ht : Token.ofText text = .literal x) : Spells text x := by
  refine ⟨hw, htight, ?_⟩
  intro lead trail offset hlead htrail
  apply Piece.literal_of_ofText
  rw [trim_append hlead htrail htight, ht]

lemma quoted {mark : Char} {content : List Char} (hq : isQuote mark = true)
    (hc : mark ∉ content) :
    Spells (mark :: content ++ [mark]) (.string (String.ofList content)) :=
  have hmark := Literal.isBlank_of_isQuote hq
  .of_token (.quoted hq hc) (isTight_between hmark hmark content) (Token.ofText_quoted hq content)

lemma of_plain {word : List Char}
    (hplain : ∀ c ∈ word, isQuote c = false ∧ c ≠ '[' ∧ c ≠ ']' ∧ c ≠ ',') (ht : IsTight word) :
    Spells word (Token.ofWord word) := by
  refine .of_token (.of_plain hplain) ht (Token.ofText_plain ?_)
  intro c hc
  obtain ⟨hq, ho, -⟩ := hplain c (List.mem_of_mem_head? hc)
  exact ⟨hq, ho⟩

lemma of_word {word : List Char} (h : ∀ c ∈ word, IsWordChar c) :
    Spells word (Token.ofWord word) :=
  .of_plain (fun c hc => ⟨(h c hc).isQuote, (h c hc).ne (by decide), (h c hc).ne (by decide),
    (h c hc).ne (by decide)⟩) (isTight_of_word h)

lemma of_number? {word : List Char} {n : Number} (h : Token.number? word = some n) :
    Spells word (.number n) := by
  have := Spells.of_word (Token.isWordChar_of_number? h)
  rwa [Token.ofWord_of_number? h] at this

lemma emptyList {blanks : List Char} (h : IsBlankRun blanks) :
    Spells (listOpen :: blanks ++ [listClose]) (.list []) := by
  have htight : IsTight (listOpen :: blanks ++ [listClose]) :=
    isTight_between (by decide) (by decide) blanks
  refine ⟨Piece.whole_list (Piece.Whole.of_isBlankRun h), htight, ?_⟩
  intro lead trail offset hlead htrail
  have htoken := Token.ofText_bracketed blanks
  rw [← trim_append hlead htrail htight] at htoken
  rw [Piece.literal_of_list htoken, if_pos (List.all_eq_true.2 h)]

/-- A list with something in it has the literals of its content as its elements. -/
lemma list {content : List Char} {xs : List Literal} (hne : ¬IsBlankRun content)
    (h : ∀ offset, Reads offset content xs) :
    Spells (listOpen :: content ++ [listClose]) (.list xs) := by
  have htight : IsTight (listOpen :: content ++ [listClose]) :=
    isTight_between (by decide) (by decide) content
  obtain ⟨pieces, hsplit, -⟩ := (h 0).exists_split
  refine ⟨Piece.whole_list hsplit, htight, ?_⟩
  intro lead trail offset hlead htrail
  have htoken := Token.ofText_bracketed content
  rw [← trim_append hlead htrail htight] at htoken
  have hsome : ¬content.all isBlank = true := fun hall => hne (List.all_eq_true.1 hall)
  rw [Piece.literal_of_list htoken, if_neg hsome, literalsFrom_eq_ok_iff.2 (h _)]
  rfl

lemma whole_append {text lead trail : List Char} {x : Literal} (h : Spells text x)
    (hlead : IsBlankRun lead) (htrail : IsBlankRun trail) :
    Piece.Whole (lead ++ text ++ trail) :=
  ((Piece.Whole.of_isBlankRun hlead).append h.whole).append (.of_isBlankRun htrail)

/-- Alone between blanks the text is an argument text. -/
lemma reads {text lead trail : List Char} {x : Literal} (h : Spells text x)
    (hlead : IsBlankRun lead) (htrail : IsBlankRun trail) (offset : Nat) :
    Reads offset (lead ++ text ++ trail) [x] :=
  .last (h.whole_append hlead htrail) (h.literal offset hlead htrail)

/-- Before a separator and an argument text it is the first argument. -/
lemma reads_cons {text lead trail rest : List Char} {x : Literal} {xs : List Literal}
    (h : Spells text x) (hlead : IsBlankRun lead) (htrail : IsBlankRun trail)
    (hrest : ∀ offset, Reads offset rest xs) (offset : Nat) :
    Reads offset (lead ++ text ++ trail ++ separator :: rest) (x :: xs) :=
  .cons (h.whole_append hlead htrail) (h.literal offset hlead htrail) (hrest _)

end Spells

/-- An argument text that spells a literal has this literal alone. -/
lemma literals_of_spells {text : String} {x : Literal} (h : Spells text.toList x) :
    literals text = .ok [x] := by
  have hreads := h.reads isBlankRun_nil isBlankRun_nil 0
  rw [List.nil_append, List.append_nil] at hreads
  exact literalsFrom_eq_ok_iff.2 hreads

/-! ### Words -/

lemma number?_integer (sign : Sign) {digits : List Char} (h : isDigits digits = true) :
    Token.number? (sign.text ++ digits) =
      some (.ofInteger sign.isMinus (value digits)) := by
  apply Token.number?_of_digits _ h
  apply sign.splitSign_text_append
  rw [← List.append_nil digits]
  exact Token.head_isDigit h

lemma number?_decimal (sign : Sign) {whole fraction : List Char} (hw : isDigits whole = true)
    (hf : isDigits fraction = true) :
    Token.number? (sign.text ++ (whole ++ '.' :: fraction)) =
      some (.float (.nearest sign.isMinus (value (whole ++ fraction)) (10 ^ fraction.length))) := by
  rw [Token.number?_of_pointed (sign.splitSign_text_append (Token.head_isDigit hw)) hw hf,
    Binary64.ofDecimal_neg, powTen_eq]

/-- A text denotes no number exactly when no sign and no digits make it up. -/
lemma number?_eq_none_iff {word : List Char} : Token.number? word = none ↔
    (∀ (sign : Sign) digits, isDigits digits = true → word ≠ sign.text ++ digits) ∧
      ∀ (sign : Sign) whole fraction, isDigits whole = true → isDigits fraction = true →
        word ≠ sign.text ++ (whole ++ '.' :: fraction) := by
  constructor
  · intro h
    constructor
    · rintro sign digits hdigits rfl
      rw [number?_integer sign hdigits] at h
      cases h
    · rintro sign whole fraction hw hf rfl
      rw [number?_decimal sign hw hf] at h
      cases h
  · rintro ⟨hint, hdec⟩
    rw [Option.eq_none_iff_forall_ne_some]
    intro n hn
    obtain ⟨negative, unsigned, hs, hnumber⟩ := Token.of_number? hn
    obtain ⟨sign, rfl⟩ := Sign.exists_of_splitSign hs
    rcases hnumber with hdigits | ⟨whole, fraction, rfl, hw, hf⟩
    · exact hint sign unsigned hdigits rfl
    · exact hdec sign whole fraction hw hf rfl

/-- A text that is no boolean word and no number stands for itself. -/
lemma ofWord_of_number?_eq_none {word : List Char}
    (hbool : word ≠ "true".toList ∧ word ≠ "false".toList) (h : Token.number? word = none) :
    Token.ofWord word = .string (String.ofList word) := by
  rw [Token.ofWord, if_neg hbool.1, if_neg hbool.2, h]

lemma denotes_ofInteger (sign : Sign) (digits : List Char) :
    Tree.Denotes (.integer sign digits)
      (.number (.ofInteger sign.isMinus (value digits))) := by
  obtain ⟨i, hi, hn⟩ | ⟨hlarge, hn⟩ :=
    Number.ofInteger_cases sign.isMinus (value digits) (v := sign.apply (value digits)) rfl
  · rw [hn]
    exact .integer hi
  · rw [hn]
    exact .largeInteger hlarge (Binary64.roundedFrom_nearest _ _ Nat.one_pos)

/-! ### Layouts of one tree -/

/-- Only the empty bare word is laid out as nothing. -/
lemma eq_bare_of_layout_nil {x : Tree} (hwf : x.WellFormed) (h : Tree.Layout x []) :
    x = .bare [] := by
  generalize htext : ([] : List Char) = text at h
  cases h with
  | boolean b => cases b <;> simp at htext
  | integer sign digits =>
    cases hwf with
    | integer hdigits =>
      obtain ⟨-, rfl⟩ := List.append_eq_nil_iff.1 htext.symm
      cases hdigits
  | bare word => rfl
  | _ => simp at htext

/-- A list is laid out as blanks only if its one element is the empty bare word. -/
lemma eq_bare_of_isBlankRun {items : List Tree} {text : List Char}
    (hwf : ∀ x ∈ items, x.WellFormed)
    (htight : ∀ x ∈ items, ∀ {text}, Tree.Layout x text → IsTight text)
    (h : Tree.Layouts items text) (hblank : IsBlankRun text) : items = [.bare []] := by
  cases h with
  | @last x lead text trail hlead h htrail =>
    rw [List.forall_mem_singleton] at hwf htight
    have hrun : IsBlankRun text := fun c hc => hblank c (by simp [hc])
    obtain rfl := (htight h).eq_nil hrun
    rw [eq_bare_of_layout_nil hwf h]
  | cons hlead h htrail hrest =>
    exact absurd (hblank ',' (by simp)) (by decide)

/-- A well-formed list is laid out as a list of what its elements are laid out as. -/
lemma reads_of_layouts {items : List Tree} {text : List Char}
    (hitems : ∀ x ∈ items, ∀ {text}, Tree.Layout x text → ∃ y, x.Denotes y ∧ Spells text y)
    (h : Tree.Layouts items text) :
    ∃ ys, List.Forall₂ Tree.Denotes items ys ∧ ∀ offset, Reads offset text ys := by
  induction items generalizing text with
  | nil => cases h
  | cons x items ih =>
    obtain ⟨hx, hitems⟩ := List.forall_mem_cons.1 hitems
    cases h with
    | last hlead h htrail =>
      obtain ⟨y, hy, hspells⟩ := hx h
      exact ⟨[y], .cons hy .nil, hspells.reads hlead htrail⟩
    | cons hlead h htrail hrest =>
      obtain ⟨y, hy, hspells⟩ := hx h
      obtain ⟨ys, hys, hreads⟩ := ih hitems hrest
      exact ⟨y :: ys, .cons hy hys, hspells.reads_cons hlead htrail hreads⟩

/-- Whatever a tree is laid out as is one piece with the value of the tree as its literal. -/
lemma exists_spells {x : Tree} (hwf : x.WellFormed) {text : List Char} (h : Tree.Layout x text) :
    ∃ y, x.Denotes y ∧ Spells text y := by
  induction x generalizing text with
  | quoted mark content =>
    cases hwf with
    | quoted hq hc =>
      cases h
      exact ⟨_, .quoted mark content, .quoted hq hc⟩
  | boolean b =>
    cases h
    refine ⟨_, .boolean b, ?_⟩
    have hword := Spells.of_word (Literal.isWordChar_text_boolean b)
    rwa [Token.ofWord_boolean] at hword
  | integer sign digits =>
    cases hwf with
    | integer hdigits =>
      cases h
      exact ⟨_, denotes_ofInteger sign digits, .of_number? (number?_integer sign hdigits)⟩
  | decimal sign whole fraction =>
    cases hwf with
    | decimal hw hf =>
      cases h
      have hden : 0 < 10 ^ fraction.length := by positivity
      exact ⟨_, .decimal (Binary64.roundedFrom_nearest _ _ hden),
        .of_number? (number?_decimal sign hw hf)⟩
  | bare word =>
    cases hwf with
    | bare hplain ht hbool hint hdec =>
      cases h
      refine ⟨_, .bare word, ?_⟩
      have hword := Spells.of_plain hplain ht
      rwa [ofWord_of_number?_eq_none hbool (number?_eq_none_iff.2 ⟨hint, hdec⟩)] at hword
  | list items ih =>
    cases hwf with
    | list hwf hne =>
      have hitems : ∀ x ∈ items, ∀ {text}, Tree.Layout x text → ∃ y, x.Denotes y ∧ Spells text y :=
        fun x hx _ h => ih x hx (hwf x hx) h
      cases h with
      | emptyList hblank => exact ⟨_, .list .nil, .emptyList hblank⟩
      | list h =>
        obtain ⟨ys, hys, hreads⟩ := reads_of_layouts hitems h
        refine ⟨_, .list hys, .list ?_ hreads⟩
        intro hblank
        apply hne
        apply eq_bare_of_isBlankRun hwf _ h hblank
        intro x hx text h
        obtain ⟨y, -, hspells⟩ := hitems x hx h
        exact hspells.tight

/-! ### Layouts of argument texts -/

/-- Every layout of argument trees is read as the values of the trees in their order. -/
theorem literals_of_layouts {trees : List Tree} {text : String}
    (hwf : ∀ x ∈ trees, x.WellFormed) (h : Tree.Layouts trees text.toList) :
    ∃ xs, literals text = .ok xs ∧ List.Forall₂ Tree.Denotes trees xs := by
  obtain ⟨xs, hxs, hreads⟩ := reads_of_layouts (fun x hx _ h => exists_spells (hwf x hx) h) h
  exact ⟨xs, literalsFrom_eq_ok_iff.2 (hreads 0), hxs⟩

/-- Quoted delimiters, an empty list with a blank in it, an empty bare word between commas, leading
zeros and a digit run beyond 64 bits, laid out with three kinds of blanks. -/
theorem literals_of_layouts_mixed :
    ∃ xs, literals "\t['a,]' , [ ] ,, -007] ,\u2003+1.50,it s , 9223372036854775808" = .ok xs ∧
      List.Forall₂ Tree.Denotes [.list [.quoted '\'' "a,]".toList, .list [], .bare [],
        .integer .minus "007".toList], .decimal .plus "1".toList "50".toList, .bare "it s".toList,
        .integer .none "9223372036854775808".toList] xs := by
  have hspace := isBlankRun_space
  have hinner : Tree.Layouts [.quoted '\'' "a,]".toList, .list [], .bare [],
      .integer .minus "007".toList] "'a,]' , [ ] ,, -007".toList :=
    .cons isBlankRun_nil (.quoted '\'' "a,]".toList) hspace <|
      .cons hspace (.emptyList hspace) hspace <|
      .cons isBlankRun_nil (.bare []) isBlankRun_nil <|
      .last hspace (.integer .minus "007".toList) isBlankRun_nil
  have hbare : ∀ {word}, (∀ c ∈ word, isQuote c = false ∧ c ≠ '[' ∧ c ≠ ']' ∧ c ≠ ',') →
      IsTight word → word ≠ "true".toList ∧ word ≠ "false".toList →
      Token.number? word = none → (Tree.bare word).WellFormed :=
    fun hplain ht hbool hn =>
      .bare hplain ht hbool (number?_eq_none_iff.1 hn).1 (number?_eq_none_iff.1 hn).2
  refine literals_of_layouts ?_ ?_
  · have hempty : (Tree.bare []).WellFormed :=
      hbare (by simp) (by simp [IsTight]) (by decide) (by decide)
    have hword : (Tree.bare "it s".toList).WellFormed :=
      hbare (by simp [isQuote, quotes]) (by simp [IsTight, isBlank]) (by decide) (by decide)
    have hlist : (Tree.list [.quoted '\'' "a,]".toList, .list [], .bare [],
        .integer .minus "007".toList]).WellFormed := by
      refine .list ?_ (by simp)
      simp only [List.forall_mem_cons]
      exact ⟨.quoted (by decide) (by decide), .list (by simp) (by simp), hempty,
        .integer (by decide), by simp⟩
    simp only [List.forall_mem_cons]
    exact ⟨hlist, .decimal (by decide) (by decide), hword, .integer (by decide), by simp⟩
  · exact .cons (show IsBlankRun ['\t'] by decide) (.list hinner) hspace <|
      .cons (show IsBlankRun ['\u2003'] by decide)
        (.decimal .plus "1".toList "50".toList) isBlankRun_nil <|
      .cons isBlankRun_nil (.bare "it s".toList) hspace <|
      .last hspace (.integer .none "9223372036854775808".toList) isBlankRun_nil

end Argument

end FormatExpr
