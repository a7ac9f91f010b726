import FormatExpr.Argument.Token
import FormatExpr.Proofs.Rounding
import FormatExpr.Text.Blank

/-!
# The text of numbers

The text of a finite number, read as a token, is that number again: the same integer, or the same
sign and rank (`number?_text`). Tokens that are numbers or boolean words are made of *word
characters*, none of which is blank or a delimiter, so that no other rule of token reading applies
to them.
-/

namespace FormatExpr

namespace Text

/-! ### Word characters -/

/-- An ASCII letter or digit, a sign or a point. -/
def IsWordChar (c : Char) : Prop :=
  c.isAlphanum = true ∨ c = '-' ∨ c = '+' ∨ c = '.'

instance (c : Char) : Decidable (IsWordChar c) :=
  inferInstanceAs (Decidable (_ ∨ _))

lemma IsWordChar.of_isDigit {c : Char} (h : c.isDigit = true) : IsWordChar c :=
  .inl (by simp [Char.isAlphanum, h])

/-- A word character is none of the characters that are no word characters. -/
lemma IsWordChar.ne {c d : Char} (h : IsWordChar c) (hd : ¬IsWordChar d) : c ≠ d := by
  rintro rfl
  exact hd h

lemma IsWordChar.isQuote {c : Char} (h : IsWordChar c) : isQuote c = false := by
  have hs : c ≠ '\'' := h.ne (by decide)
  have hd : c ≠ '"' := h.ne (by decide)
  simp [FormatExpr.isQuote, quotes, hs, hd]

lemma isBlank_of_isAlphanum {c : Char} (h : c.isAlphanum = true) : isBlank c = false := by
  simp only [Char.isAlphanum, Char.isAlpha, Char.isUpper, Char.isLower, Char.isDigit,
    Bool.or_eq_true, Bool.and_eq_true, decide_eq_true_eq, ge_iff_le, UInt32.le_iff_toNat_le] at h
  change ((65 ≤ c.toNat ∧ c.toNat ≤ 90) ∨ (97 ≤ c.toNat ∧ c.toNat ≤ 122)) ∨
    (48 ≤ c.toNat ∧ c.toNat ≤ 57) at h
  simp only [isBlank, Bool.or_eq_false_iff, Bool.and_eq_false_iff, decide_eq_false_iff_not,
    beq_eq_false_iff_ne]
  omega

lemma IsWordChar.isBlank {c : Char} (h : IsWordChar c) : isBlank c = false := by
  rcases h with h | rfl | rfl | rfl
  · exact isBlank_of_isAlphanum h
  · rfl
  · rfl
  · rfl

/-! ### Digits -/

lemma isDigits_iff {cs : List Char} :
    isDigits cs = true ↔ cs ≠ [] ∧ ∀ c ∈ cs, c.isDigit = true := by
  simp [isDigits]

lemma value_append (u v : List Char) : value (u ++ v) = 10 ^ v.length * value u + value v := by
  rw [value, Nat.ofDigitChars_append, Nat.ofDigitChars_eq_ofDigitChars_zero]
  rfl

lemma value_replicate_zero_append (k : Nat) (v : List Char) :
    value (List.replicate k '0' ++ v) = value v := by
  rw [value, Nat.ofDigitChars_append, Nat.ofDigitChars_replicate_zero, Nat.mul_zero]
  rfl

lemma value_append_replicate_zero (cs : List Char) (k : Nat) :
    value (cs ++ List.replicate k '0') = value cs * 10 ^ k := by
  have hzeros := value_replicate_zero_append k []
  rw [List.append_nil] at hzeros
  rw [value_append, hzeros, List.length_replicate, Nat.mul_comm]
  rfl

lemma length_digits_pos (n : Nat) : 0 < (digits n).length :=
  List.length_pos_iff.2 Nat.toDigits_ne_nil

lemma length_digits_le {n places : Nat} (hplaces : 0 < places) (h : n < 10 ^ places) :
    (digits n).length ≤ places :=
  (Nat.length_toDigits_le_iff (by decide) hplaces).2 h

/-- The digits of a number, filled up with zeros to `places` digits. -/
lemma digits_padded {n places : Nat} (hplaces : 0 < places) (h : n < 10 ^ places) :
    let padded := List.replicate (places - (digits n).length) '0' ++ digits n
    isDigits padded = true ∧ padded.length = places ∧ value padded = n := by
  have hlen := length_digits_le hplaces h
  obtain ⟨hne, hdigits⟩ := isDigits_iff.1 (isDigits_digits n)
  refine ⟨isDigits_iff.2 ⟨?_, ?_⟩, ?_, ?_⟩
  · simp [hne]
  · intro c hc
    rcases List.mem_append.1 hc with hc | hc
    · rw [List.eq_of_mem_replicate hc]
      decide
    · exact hdigits c hc
  · rw [List.length_append, List.length_replicate]
    omega
  · rw [value_replicate_zero_append, value_digits]

/-! ### Signs and points -/

/-- A minus for a negative number. -/
def sign (negative : Bool) : List Char :=
  if negative then ['-'] else []

lemma splitSign_sign_append (negative : Bool) {cs : List Char}
    (h : ∀ c ∈ cs.head?, c.isDigit = true) : splitSign (sign negative ++ cs) = (negative, cs) := by
  cases negative with
  | true => rfl
  | false =>
    cases cs with
    | nil => rfl
    | cons c cs =>
      have hc := h c rfl
      have hm : c ≠ '-' := by rintro rfl; revert hc; decide
      have hp : c ≠ '+' := by rintro rfl; revert hc; decide
      simp only [sign, Bool.false_eq_true, if_false, List.nil_append]
      rw [splitSign]
      · simp [hm]
      · simp [hp]

lemma pointed?_append {whole fraction : List Char} (hw : isDigits whole = true)
    (hf : isDigits fraction = true) :
    pointed? (whole ++ '.' :: fraction) = some (whole, fraction) := by
  have hpoint : ∀ c ∈ whole, (decide (c ≠ '.')) = true := by
    intro c hc
    have := (isDigits_iff.1 hw).2 c hc
    rw [decide_eq_true_eq]
    rintro rfl
    revert this
    decide
  have htake : (whole ++ '.' :: fraction).takeWhile (· ≠ '.') = whole := by
    rw [List.takeWhile_append_of_pos hpoint]
    simp
  have hdrop : (whole ++ '.' :: fraction).dropWhile (· ≠ '.') = '.' :: fraction := by
    rw [List.dropWhile_append_of_pos hpoint]
    simp
  simp only [pointed?, htake, hdrop, hw, hf, Bool.and_self, if_true]

lemma isDigits_append_point (whole fraction : List Char) :
    isDigits (whole ++ '.' :: fraction) = false := by
  simp only [isDigits, List.all_append, List.all_cons]
  rw [show Char.isDigit '.' = false by decide]
  simp

end Text

/-! ### Signs -/

/-- An optional sign in front of digits. -/
inductive Sign where
  | none
  | plus
  | minus
  deriving DecidableEq, Repr

namespace Sign

/-- The text of a sign. -/
def text : Sign → List Char
  | none => []
  | plus => ['+']
  | minus => ['-']

/-- The sign is a minus. -/
def isMinus : Sign → Bool
  | minus => true
  | _ => false

/-- A number with a sign in front. -/
def apply (s : Sign) (n : Nat) : Int :=
  if s.isMinus then -n else n

lemma splitSign_text_append (s : Sign) {cs : List Char}
    (h : ∀ c ∈ cs.head?, c.isDigit = true) :
    Text.splitSign (s.text ++ cs) = (s.isMinus, cs) := by
  cases s with
  | none => exact Text.splitSign_sign_append false h
  | plus => rfl
  | minus => rfl

end Sign

/-! ### Floating point numbers -/

namespace Binary64

open Text

/-- A quotient with a power of ten below it, as digits around a point. -/
lemma pointedDigits_eq {places : Nat} (hplaces : 0 < places) (n : Nat) :
    ∃ whole fraction, pointedDigits places n = digits whole ++ '.' :: fraction ∧
      isDigits fraction = true ∧ fraction.length = places ∧
      value (digits whole ++ fraction) = n := by
  have hlt : n % powTen places < 10 ^ places := Nat.mod_lt n (powTen_pos places)
  obtain ⟨hdigits, hlen, hvalue⟩ := digits_padded hplaces hlt
  refine ⟨n / powTen places, _, ?_, hdigits, hlen, ?_⟩
  · simp [pointedDigits]
  · rw [value_append, hlen, hvalue, value_digits]
    exact Nat.div_add_mod n (powTen places)

/-- The magnitude of a finite number is written as digits around a point, and they read back as
its rank. -/
theorem magnitudeText_eq {x : Binary64} (hx : x.isFinite = true) :
    ∃ whole fraction, x.magnitudeText = digits whole ++ '.' :: fraction ∧
      isDigits fraction = true ∧
      nearestRank (value (digits whole ++ fraction)) (powTen fraction.length) = x.rank := by
  have hrank := isFinite_iff.1 hx
  rw [magnitudeText]
  split_ifs with hint
  · refine ⟨x.units / unitsPerOne, ['0'], rfl, by decide, ?_⟩
    apply nearestRank_of_eq (powTen_pos _) hrank
    have hmod : x.units % unitsPerOne = 0 := by
      simp only [isIntegral, Bool.and_eq_true, beq_iff_eq] at hint
      exact hint.2
    have hunits := Nat.div_mul_cancel (Nat.dvd_of_mod_eq_zero hmod)
    have hzero : value ['0'] = 0 := by decide
    rw [value_append, value_digits, hzero, Nat.add_zero, Nat.mul_assoc, hunits, units, powTen_eq,
      Nat.mul_comm]
  · have hshortest := nearestRank_shortest hrank
    generalize shortest x.rank = decimal at hshortest ⊢
    obtain ⟨places, n⟩ := decimal
    obtain ⟨hplaces, hback⟩ := hshortest
    obtain ⟨whole, fraction, htext, hf, hlen, hvalue⟩ := pointedDigits_eq hplaces n
    exact ⟨whole, fraction, htext, hf, by rw [hvalue, hlen, hback]⟩

lemma text_of_isFinite {x : Binary64} (hx : x.isFinite = true) :
    x.text = sign x.negative ++ x.magnitudeText := by
  have hrank := isFinite_iff.1 hx
  have hnan : x.isNaN = false := by simpa [isNaN] using hrank.le
  have hinf : x.isInfinite = false := by simpa [isInfinite] using hrank.ne
  cases hs : x.negative <;> simp [text, sign, hnan, hinf, hs]

lemma nearest_eq_of_rank {x : Binary64} {num den : Nat} (h : nearestRank num den = x.rank) :
    nearest x.negative num den = x := by
  obtain ⟨negative, rank, hlt⟩ := x
  simp only [nearest, Binary64.mk.injEq, true_and]
  exact h

end Binary64

/-! ### Numbers -/

namespace Number

/-- The number is an integer, or a finite floating point number. -/
def IsFinite : Number → Prop
  | integer _ => True
  | float x => x.isFinite = true

/-- A sign and a natural number make up an integer of 64 bits, or they are rounded. -/
lemma ofInteger_cases (negative : Bool) (n : Nat) {v : Int}
    (hv : v = if negative then -(n : Int) else n) :
    (∃ i : Int64, i.toInt = v ∧ ofInteger negative n = integer i) ∨
      ¬(-2 ^ 63 ≤ v ∧ v < 2 ^ 63) ∧ ofInteger negative n = float (.nearest negative n 1) := by
  have hmin : Int64.minValue.toInt = -2 ^ 63 := by decide
  have hmax : Int64.maxValue.toInt = 2 ^ 63 - 1 := by decide
  have hrange : Int64.minValue.toInt ≤ v ∧ v ≤ Int64.maxValue.toInt ↔
      -2 ^ 63 ≤ v ∧ v < 2 ^ 63 := by
    rw [hmin, hmax]
    omega
  rw [ofInteger, ← hv, ← Binary64.ofDecimal_zero]
  by_cases h : -2 ^ 63 ≤ v ∧ v < 2 ^ 63
  · exact .inl ⟨_, Int64.toInt_ofInt_of_le h.1 h.2, if_pos (hrange.2 h)⟩
  · exact .inr ⟨h, if_neg (hrange.not.2 h)⟩

end Number

namespace Token

open Text

lemma number?_of_digits {word unsigned : List Char} {negative : Bool}
    (hs : splitSign word = (negative, unsigned)) (h : isDigits unsigned = true) :
    number? word = some (.ofInteger negative (value unsigned)) := by
  simp only [number?, hs, h, if_true]

lemma number?_of_pointed {word whole fraction : List Char} {negative : Bool}
    (hs : splitSign word = (negative, whole ++ '.' :: fraction)) (hw : isDigits whole = true)
    (hf : isDigits fraction = true) :
    number? word = some (.float
      (Binary64.ofDecimal negative (value (whole ++ fraction)) (-fraction.length))) := by
  simp [number?, hs, isDigits_append_point, pointed?_append hw hf]

lemma head_isDigit {ds rest : List Char} (h : isDigits ds = true) :
    ∀ c ∈ (ds ++ rest).head?, c.isDigit = true := by
  obtain ⟨hne, hdigits⟩ := isDigits_iff.1 h
  intro c hc
  rw [List.head?_append_of_ne_nil _ hne] at hc
  exact hdigits c (List.mem_of_mem_head? hc)

lemma ofInteger_toInt (i : Int64) :
    Number.ofInteger (decide (i.toInt < 0)) i.toInt.natAbs = .integer i := by
  have hi : (if decide (i.toInt < 0) = true then -(i.toInt.natAbs : Int) else i.toInt.natAbs)
      = i.toInt := by
    split_ifs with h
    · rw [decide_eq_true_eq] at h
      omega
    · rw [decide_eq_true_eq] at h
      omega
  rw [Number.ofInteger]
  simp only [hi]
  rw [if_pos ⟨i.minValue_le_toInt, i.toInt_le⟩, Int64.ofInt_toInt]

lemma signed_eq (i : Int) : signed i = sign (decide (i < 0)) ++ digits i.natAbs := by
  by_cases h : i < 0 <;> simp [signed, sign, h]

/-- The text of a finite number reads back as that number. -/
theorem number?_text {n : Number} (h : n.IsFinite) : number? n.text = some n := by
  cases n with
  | integer i =>
    have hdigits := isDigits_digits i.toInt.natAbs
    have hsign := splitSign_sign_append (decide (i.toInt < 0)) (@head_isDigit _ [] hdigits)
    rw [List.append_nil] at hsign
    rw [Number.text, signed_eq, number?_of_digits hsign hdigits, value_digits, ofInteger_toInt]
  | float x =>
    obtain ⟨whole, fraction, htext, hf, hback⟩ := Binary64.magnitudeText_eq h
    have hw := isDigits_digits whole
    rw [Number.text, Binary64.text_of_isFinite h, htext,
      number?_of_pointed (splitSign_sign_append _ (head_isDigit hw)) hw hf,
      Binary64.ofDecimal_neg, Binary64.nearest_eq_of_rank hback]

end Token

end FormatExpr
