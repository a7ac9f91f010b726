import FormatExpr.Proofs.NumberText

/-!
# What tokens say

Every rule of token reading as an equivalence or in both directions: which texts stand between two
characters, what the text of a string, a list or a word is read as, and what a token must look
like if it is read as a string, a number, a boolean or a list.
-/

namespace FormatExpr

namespace Token

open Text

/-! ### Texts between two characters -/

lemma between?_eq_some_iff {first last : Char} {text content : List Char} :
    between? first last text = some content ↔ text = first :: content ++ [last] := by
  cases text with
  | nil => simp [between?]
  | cons c cs =>
    rw [between?, List.cons_append, List.cons.injEq]
    constructor
    · intro h
      split_ifs at h with hc
      obtain ⟨rfl, hlast⟩ := hc
      obtain ⟨init, rfl⟩ := List.getLast?_eq_some_iff.1 hlast
      simp only [List.dropLast_concat, Option.some.injEq] at h
      exact ⟨rfl, by rw [h]⟩
    · rintro ⟨rfl, rfl⟩
      simp

lemma quotedContent?_eq_some_iff {text content : List Char} :
    quotedContent? text = some content ↔
      ∃ q, isQuote q = true ∧ text = q :: content ++ [q] := by
  cases text with
  | nil => simp [quotedContent?]
  | cons c cs =>
    rw [quotedContent?]
    split_ifs with hq
    · rw [between?_eq_some_iff]
      constructor
      · intro h
        exact ⟨c, hq, h⟩
      · rintro ⟨q, -, h⟩
        obtain ⟨rfl, -⟩ := List.cons.inj h
        exact h
    · constructor
      · intro h
        cases h
      · rintro ⟨q, hq', h⟩
        obtain ⟨rfl, -⟩ := List.cons.inj h
        exact absurd hq' hq

/-! ### Reading -/

/-- A text between two equal quote characters is a string. -/
lemma ofText_quoted {q : Char} (hq : isQuote q = true) (content : List Char) :
    ofText (q :: content ++ [q]) = .literal (.string (String.ofList content)) := by
  rw [ofText, quotedContent?_eq_some_iff.2 ⟨q, hq, rfl⟩]

/-- A text between brackets is a list. -/
lemma ofText_bracketed (content : List Char) :
    ofText (listOpen :: content ++ [listClose]) = .list content := by
  have hq : quotedContent? (listOpen :: content ++ [listClose]) = none := rfl
  rw [ofText, hq, between?_eq_some_iff.2 rfl]

/-- A text that begins with neither a quote nor a bracket is a word. -/
lemma ofText_plain {word : List Char} (h : ∀ c ∈ word.head?, isQuote c = false ∧ c ≠ listOpen) :
    ofText word = .literal (ofWord word) := by
  cases word with
  | nil => rfl
  | cons c cs =>
    obtain ⟨hq, ho⟩ := h c rfl
    simp [ofText, quotedContent?, between?, hq, ho]

/-- A text that begins with a word character is a word. -/
lemma ofText_word {word : List Char} (h : ∀ c ∈ word.head?, IsWordChar c) :
    ofText word = .literal (ofWord word) :=
  ofText_plain fun c hc => ⟨(h c hc).isQuote, (h c hc).ne (by decide)⟩

lemma ofWord_of_number? {word : List Char} {n : Number} (h : number? word = some n) :
    ofWord word = .number n := by
  have htrue : word ≠ "true".toList := by
    rintro rfl
    rw [show number? "true".toList = none by decide] at h
    cases h
  have hfalse : word ≠ "false".toList := by
    rintro rfl
    rw [show number? "false".toList = none by decide] at h
    cases h
  rw [ofWord, if_neg htrue, if_neg hfalse, h]

lemma ofWord_boolean (b : Bool) : ofWord (Literal.boolean b).text = .boolean b := by
  cases b <;> rfl

/-! ### What was read -/

lemma eq_of_pointed? {cs whole fraction : List Char} (h : pointed? cs = some (whole, fraction)) :
    cs = whole ++ '.' :: fraction ∧ isDigits whole = true ∧ isDigits fraction = true := by
  have hspan := @List.takeWhile_append_dropWhile _ (· ≠ '.') cs
  rw [pointed?] at h
  split at h
  · simp at h
  · rename_i point rest hdrop
    split_ifs at h with hdigits
    cases h
    rw [Bool.and_eq_true] at hdigits
    have hpoint : point = '.' := by
      have := List.head?_dropWhile_not (· ≠ '.') cs
      rw [hdrop] at this
      simpa using this
    rw [hdrop, hpoint] at hspan
    exact ⟨hspan.symm, hdigits⟩

/-- A text without its sign. -/
lemma eq_of_splitSign {cs unsigned : List Char} {negative : Bool}
    (h : splitSign cs = (negative, unsigned)) :
    cs = unsigned ∨ cs = '-' :: unsigned ∨ cs = '+' :: unsigned := by
  rw [splitSign.eq_def] at h
  split at h <;> cases h
  · exact .inr (.inl rfl)
  · exact .inr (.inr rfl)
  · exact .inl rfl

/-- What a word must be to be read as a number: digits with or without a point after an optional
sign. -/
lemma of_number? {word : List Char} {n : Number} (h : number? word = some n) :
    ∃ negative unsigned, splitSign word = (negative, unsigned) ∧
      (isDigits unsigned = true ∨ ∃ whole fraction, unsigned = whole ++ '.' :: fraction ∧
        isDigits whole = true ∧ isDigits fraction = true) := by
  cases hs : splitSign word with
  | mk negative unsigned =>
    refine ⟨negative, unsigned, rfl, ?_⟩
    rw [number?, hs] at h
    dsimp only at h
    split_ifs at h with hdigits
    · exact .inl hdigits
    · obtain ⟨⟨whole, fraction⟩, hp, -⟩ := Option.map_eq_some_iff.1 h
      exact .inr ⟨whole, fraction, eq_of_pointed? hp⟩

/-- No text denotes NaN. -/
lemma rank_le_of_number? {word : List Char} {x : Binary64}
    (h : number? word = some (.float x)) : x.rank ≤ Binary64.infinityRank := by
  rw [number?] at h
  split at h
  rename_i negative unsigned hs
  split_ifs at h with hdigits
  · rw [Option.some.injEq, Number.ofInteger] at h
    split_ifs at h
    all_goals
      cases h
      exact Binary64.rank_ofDecimal_le _ _ _
  · obtain ⟨⟨whole, fraction⟩, -, hx⟩ := Option.map_eq_some_iff.1 h
    cases hx
    exact Binary64.rank_ofDecimal_le _ _ _

/-- A number is made of word characters. -/
lemma isWordChar_of_number? {word : List Char} {n : Number} (h : number? word = some n) :
    ∀ c ∈ word, IsWordChar c := by
  obtain ⟨negative, unsigned, hs, hnumber⟩ := of_number? h
  have hrun : ∀ {ds : List Char}, isDigits ds = true → ∀ c ∈ ds, IsWordChar c :=
    fun hds c hc => .of_isDigit ((isDigits_iff.1 hds).2 c hc)
  have hunsigned : ∀ c ∈ unsigned, IsWordChar c := by
    rcases hnumber with hdigits | ⟨whole, fraction, rfl, hw, hf⟩
    · exact hrun hdigits
    · intro c hc
      rcases List.mem_append.1 hc with hc | hc
      · exact hrun hw c hc
      · rcases List.mem_cons.1 hc with rfl | hc
        · exact .inr (.inr (.inr rfl))
        · exact hrun hf c hc
  intro c hc
  rcases eq_of_splitSign hs with rfl | rfl | rfl
  · exact hunsigned c hc
  · rcases List.mem_cons.1 hc with rfl | hc
    · exact .inr (.inl rfl)
    · exact hunsigned c hc
  · rcases List.mem_cons.1 hc with rfl | hc
    · exact .inr (.inr (.inl rfl))
    · exact hunsigned c hc

/-- What a word must be to be read as a given literal. -/
lemma of_ofWord {word : List Char} {x : Literal} (h : ofWord word = x) :
    (∃ b, x = .boolean b ∧ word = (Literal.boolean b).text) ∨
      (∃ n, x = .number n ∧ number? word = some n) ∨
      x = .string (String.ofList word) := by
  rw [ofWord] at h
  split_ifs at h with htrue hfalse
  · exact .inl ⟨true, h.symm, htrue⟩
  · exact .inl ⟨false, h.symm, hfalse⟩
  · split at h
    · rename_i n hn
      exact .inr (.inl ⟨n, h.symm, hn⟩)
    · exact .inr (.inr h.symm)

/-- What a text must be to be read as a given token. -/
lemma of_ofText {text : List Char} {t : Token} (h : ofText text = t) :
    (∃ q content, t = .literal (.string (String.ofList content)) ∧ isQuote q = true ∧
        text = q :: content ++ [q]) ∨
      (∃ content, t = .list content ∧ text = listOpen :: content ++ [listClose]) ∨
      t = .literal (ofWord text) := by
  rw [ofText] at h
  split at h
  · rename_i content hcontent
    obtain ⟨q, hq, htext⟩ := quotedContent?_eq_some_iff.1 hcontent
    exact .inl ⟨q, content, h.symm, hq, htext⟩
  · split at h
    · rename_i content hcontent
      exact .inr (.inl ⟨content, h.symm, between?_eq_some_iff.1 hcontent⟩)
    · exact .inr (.inr h.symm)

end Token

end FormatExpr
