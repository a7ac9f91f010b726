import FormatExpr.Json.Text
import FormatExpr.Proofs.NumeralValue
import FormatExpr.Proofs.ShortestDecimal

/-!
# JSON numerals

The texts of a numeral are given by a layout, and each of them is read as that numeral, up to a
character that does not continue it (`Json.Numeral.Layout.read_append`). A finite number is written
as such a text, and the numeral is read as that number (`Json.Numeral.exists_layout_float`): the
number has at most 360 places, so all of its digits are read one by one
(`Binary64.value_of_magnitudeText_lt`).
-/

namespace FormatExpr

open Text

namespace Binary64

/-! ### The size of decimals -/

lemma unitsOfRank_lt {rank : Nat} (h : rank < infinityRank) :
    unitsOfRank rank < 2 ^ 1024 * unitsPerOne :=
  unitsOfRank_infinityRank ▸ unitsOfRank_strictMono h

lemma le_of_decimalAt? {rank places n : Nat} (h : decimalAt? rank places = some n) :
    n ≤ unitsOfRank rank * powTen places / unitsPerOne + 1 := by
  rw [decimalAt?] at h
  split_ifs at h <;> cases h <;> omega

/-- A number with few places has no more digits than a numeral is read with. -/
lemma scaled_lt {rank places : Nat} (hrank : rank < infinityRank) (hplaces : places ≤ 360) :
    unitsOfRank rank * powTen places / unitsPerOne + 1 < 10 ^ Json.Numeral.digitLimit := by
  have hlimit : 342 + places < Json.Numeral.digitLimit := by
    rw [Json.Numeral.digitLimit]
    omega
  have hlt : unitsOfRank rank * powTen places / unitsPerOne < 2 ^ 1024 * 10 ^ places := by
    rw [Nat.div_lt_iff_lt_mul unitsPerOne_pos, Nat.mul_right_comm, powTen_eq]
    exact Nat.mul_lt_mul_of_pos_right (unitsOfRank_lt hrank) (by positivity)
  calc unitsOfRank rank * powTen places / unitsPerOne + 1 ≤ 2 ^ 1024 * 10 ^ places := hlt
    _ ≤ 10 ^ 342 * 10 ^ places := Nat.mul_le_mul_right _ (two_pow_le_ten_pow (by omega))
    _ = 10 ^ (342 + places) := (pow_add 10 342 places).symm
    _ < 10 ^ Json.Numeral.digitLimit := Nat.pow_lt_pow_right (by omega) hlimit

/-- The digits around the point of a finite number are few enough to be read one by one. -/
lemma value_of_magnitudeText_lt {x : Binary64} (hx : x.isFinite = true)
    {whole fraction : List Char} (h : x.magnitudeText = whole ++ '.' :: fraction)
    (hw : isDigits whole = true) (hf : isDigits fraction = true) :
    value (whole ++ fraction) < 10 ^ Json.Numeral.digitLimit := by
  have hrank := isFinite_iff.1 hx
  have hunique : ∀ {n : Nat} {fraction'},
      digits n ++ '.' :: fraction' = whole ++ '.' :: fraction → isDigits fraction' = true →
        value (whole ++ fraction) = value (digits n ++ fraction') := by
    intro n fraction' heq hf'
    have hpointed := pointed?_append hw hf
    rw [← heq, pointed?_append (isDigits_digits n) hf'] at hpointed
    cases hpointed
    rfl
  rw [magnitudeText] at h
  split_ifs at h with hint
  · rw [hunique h (by decide), value_append, value_digits]
    have hplaces : 1 ≤ 360 := by omega
    refine lt_of_le_of_lt ?_ (scaled_lt hrank hplaces)
    have hle := Nat.mul_div_le_mul_div_assoc 10 x.units unitsPerOne
    rw [Nat.mul_comm 10 x.units] at hle
    exact hle.trans (Nat.le_succ _)
  · obtain ⟨hpos, hplaces, hat, -⟩ := shortest_isLeast hrank
    have hle := le_of_decimalAt? hat
    generalize shortest x.rank = decimal at h hpos hplaces hle
    obtain ⟨places, n⟩ := decimal
    obtain ⟨whole', fraction', htext, hf', -, hvalue⟩ := pointedDigits_eq hpos n
    rw [hunique (htext.symm.trans h) hf', hvalue]
    exact hle.trans_lt (scaled_lt hrank hplaces)

end Binary64

namespace Json.Numeral

/-! ### The numerals of numbers -/

/-- The numeral of a number with digits around a point denotes that number. -/
lemma value?_of_fraction {x : Binary64} (hx : x.isFinite = true) {whole fraction : List Char}
    (h : x.magnitudeText = whole ++ '.' :: fraction) (hw : isDigits whole = true)
    (hf : isDigits fraction = true)
    (hback : Binary64.nearestRank (value (whole ++ fraction)) (powTen fraction.length) = x.rank) :
    value? ⟨x.negative, whole, some fraction, none⟩ = some (.float x) := by
  generalize hn : (⟨x.negative, whole, some fraction, none⟩ : Numeral) = n
  have hdigits : ∀ c ∈ n.allDigits, c.isDigit = true := by
    rw [← hn]
    exact List.forall_mem_append.2 ⟨(isDigits_iff.1 hw).2, (isDigits_iff.1 hf).2⟩
  have hscale : n.scale = -(fraction.length : Int) := by simp [scale, ← hn]
  have hnum : n.num = value (whole ++ fraction) := by
    rw [num, hscale, Int.toNat_neg_natCast, pow_zero, Nat.mul_one, ← hn]
    rfl
  have hden : n.den = 10 ^ fraction.length := by rw [den, hscale, neg_neg, Int.toNat_natCast]
  have hshort : n.significant.length ≤ digitLimit := by
    apply length_significant_le hdigits
    rw [← hn]
    exact Binary64.value_of_magnitudeText_lt hx h hw hf
  have hinteger : ¬n.IsInteger := by
    rw [← hn]
    rintro ⟨⟨⟩, -⟩
  have hrounded : x.RoundedFrom n.negative n.num n.den := by
    rw [hnum, hden, ← hn]
    exact (Binary64.roundedFrom_iff (powTen_pos _)).2 hback
  have heq := ((roundsTo_ofDecimal hdigits).roundedFrom hshort).unique n.den_pos hrounded
  rw [value?_of_not_isInteger hdigits hinteger, nearest?, heq, if_pos hx]

lemma value?_of_digits {i : Int64} :
    value? ⟨decide (i.toInt < 0), digits i.toInt.natAbs, none, none⟩ = some (.integer i) := by
  have hzero : ¬(decide (i.toInt < 0) = true ∧ value (digits i.toInt.natAbs) = 0) := by
    rw [value_digits, decide_eq_true_eq]
    omega
  simp only [value?]
  rw [if_neg hzero, value_digits, Token.ofInteger_toInt]

/-! ### Layouts -/

/-- A fraction is written as a point and digits. -/
inductive FractionLayout : Option (List Char) → List Char → Prop where
  | absent : FractionLayout none []
  | present {digits : List Char} (h : isDigits digits = true) :
      FractionLayout (some digits) ('.' :: digits)

/-- A power of ten is written as a letter, an optional sign and digits. -/
inductive ExponentLayout : Option Int → List Char → Prop where
  | absent : ExponentLayout none []
  | present {letter : Char} (hletter : letter = 'e' ∨ letter = 'E') (sign : Sign)
      {digits : List Char} (h : isDigits digits = true) :
      ExponentLayout (some (sign.apply (value digits))) (letter :: (sign.text ++ digits))

/-- The texts that a numeral may be written as. The digits before the point begin with a zero only
if that is all. -/
inductive Layout : Numeral → List Char → Prop where
  | mk (negative : Bool) {whole : List Char} {fraction : Option (List Char)}
      {exponent : Option Int} {fractionText exponentText : List Char} (hw : isDigits whole = true)
      (hzero : whole.head? = some '0' → whole.length = 1)
      (hf : FractionLayout fraction fractionText) (he : ExponentLayout exponent exponentText) :
      Layout ⟨negative, whole, fraction, exponent⟩
        (sign negative ++ (whole ++ (fractionText ++ exponentText)))

lemma Layout.isDigit {n : Numeral} {cs : List Char} (h : Layout n cs) :
    ∀ c ∈ n.allDigits, c.isDigit = true := by
  obtain ⟨negative, hw, -, hf, -⟩ := h
  refine List.forall_mem_append.2 ⟨(isDigits_iff.1 hw).2, ?_⟩
  cases hf with
  | absent => simp
  | present hdigits => exact (isDigits_iff.1 hdigits).2

/-! ### Reading -/

/-- A numeral is not continued by the text that follows it. -/
def EndsBefore (rest : List Char) : Prop :=
  ∀ c ∈ rest.head?, c.isDigit = false ∧ c ≠ '.' ∧ c ≠ 'e' ∧ c ≠ 'E'

lemma readDigits_append {ds rest : List Char} (h : isDigits ds = true)
    (hrest : ∀ c ∈ rest.head?, c.isDigit = false) : readDigits (ds ++ rest) = some (ds, rest) := by
  obtain ⟨hne, hdigits⟩ := isDigits_iff.1 h
  have hstop : rest.takeWhile Char.isDigit = [] ∧ rest.dropWhile Char.isDigit = rest := by
    cases rest with
    | nil => simp
    | cons c cs => simp [hrest c rfl]
  simp only [readDigits]
  rw [List.takeWhile_append_of_pos hdigits, List.dropWhile_append_of_pos hdigits, hstop.1,
    hstop.2, List.append_nil, if_neg (by simpa using hne)]

lemma splitMinus_sign_append (negative : Bool) {cs : List Char}
    (h : ∀ c ∈ cs.head?, c.isDigit = true) : splitMinus (sign negative ++ cs) = (negative, cs) := by
  cases negative with
  | true => rfl
  | false =>
    cases cs with
    | nil => rfl
    | cons c cs =>
      have hc : c ≠ '-' := by
        rintro rfl
        cases h '-' rfl
      simp [sign, splitMinus, hc]

lemma readWhole_append {whole rest : List Char} (hw : isDigits whole = true)
    (hzero : whole.head? = some '0' → whole.length = 1)
    (hrest : ∀ c ∈ rest.head?, c.isDigit = false) :
    readWhole (whole ++ rest) = some (whole, rest) := by
  rw [readWhole, readDigits_append hw hrest]
  simp only [Option.bind_eq_bind, Option.bind_some]
  rw [if_neg fun h => h.2 (hzero h.1)]

lemma FractionLayout.readFraction_append {fraction : Option (List Char)} {cs rest : List Char}
    (h : FractionLayout fraction cs) (hrest : ∀ c ∈ rest.head?, c.isDigit = false ∧ c ≠ '.') :
    readFraction (cs ++ rest) = some (fraction, rest) := by
  cases h with
  | absent =>
    cases rest with
    | nil => rfl
    | cons c cs => simp [readFraction, (hrest c rfl).2]
  | present hdigits =>
    rw [List.cons_append, readFraction, readDigits_append hdigits fun c hc => (hrest c hc).1]
    rfl

lemma ExponentLayout.readExponent_append {exponent : Option Int} {cs rest : List Char}
    (h : ExponentLayout exponent cs) (hrest : EndsBefore rest) :
    readExponent (cs ++ rest) = some (exponent, rest) := by
  cases h with
  | absent =>
    cases rest with
    | nil => rfl
    | cons c cs =>
      obtain ⟨-, -, he, hE⟩ := hrest c rfl
      rw [List.nil_append, readExponent, if_neg (by simp [he, hE])]
  | present hletter sign hdigits =>
    rw [List.cons_append, List.append_assoc, readExponent, if_pos hletter,
      sign.splitSign_text_append (Token.head_isDigit hdigits)]
    simp only [readDigits_append hdigits fun c hc => (hrest c hc).1, Option.bind_eq_bind,
      Option.bind_some]
    rfl

lemma ExponentLayout.head_append {exponent : Option Int} {cs rest : List Char}
    (h : ExponentLayout exponent cs) (hrest : EndsBefore rest) :
    ∀ c ∈ (cs ++ rest).head?, c.isDigit = false ∧ c ≠ '.' := by
  cases h with
  | absent => exact fun c hc => ⟨(hrest c hc).1, (hrest c hc).2.1⟩
  | present hletter =>
    rintro c ⟨⟩
    rcases hletter with rfl | rfl <;> decide

lemma FractionLayout.head_append {fraction : Option (List Char)} {cs rest : List Char}
    (h : FractionLayout fraction cs) (hrest : ∀ c ∈ rest.head?, c.isDigit = false) :
    ∀ c ∈ (cs ++ rest).head?, c.isDigit = false := by
  cases h with
  | absent => exact hrest
  | present =>
    rintro c ⟨⟩
    decide

/-- A numeral is read from any text that it may be written as. -/
theorem Layout.read_append {n : Numeral} {cs rest : List Char} (h : Layout n cs)
    (hrest : EndsBefore rest) : read (cs ++ rest) = some (n, rest) := by
  obtain @⟨negative, whole, _, _, _, _, hw, hzero, hf, he⟩ := h
  have hexponent := he.readExponent_append hrest
  have hafter := he.head_append hrest
  have hfraction := hf.readFraction_append hafter
  have hstop := hf.head_append fun c hc => (hafter c hc).1
  have hwhole := readWhole_append hw hzero hstop
  have hminus : ∀ cs, splitMinus (sign negative ++ (whole ++ cs)) = (negative, whole ++ cs) :=
    fun cs => splitMinus_sign_append negative (Token.head_isDigit hw)
  simp only [read, List.append_assoc, hminus, hwhole, hfraction, hexponent, Option.bind_eq_bind,
    Option.bind_some]

/-! ### The texts of numbers -/

lemma head_digits_ne_zero {n : Nat} (h : n ≠ 0) : (digits n).head? ≠ some '0' := by
  induction n using Nat.strongRecOn with
  | ind n ih =>
    rcases Nat.lt_or_ge n 10 with hlt | hge
    · have hall : ∀ d < 10, d ≠ 0 → (some (Nat.digitChar d)) ≠ some '0' := by decide
      rw [digits, Nat.toDigits_of_lt_base hlt]
      exact hall n hlt h
    · rw [digits, Nat.toDigits_of_base_le (by omega) hge,
        List.head?_append_of_ne_nil _ Nat.toDigits_ne_nil]
      exact ih (n / 10) (by omega) (by omega)

/-- The digits of a number begin with a zero only if that is all. -/
lemma length_digits_of_head {n : Nat} (h : (digits n).head? = some '0') :
    (digits n).length = 1 := by
  by_cases hn : n = 0
  · rw [hn]
    rfl
  · exact absurd h (head_digits_ne_zero hn)

/-- An integer is written as a numeral that is read as this integer. -/
lemma exists_layout_integer (i : Int64) :
    ∃ n, Layout n (numberText (.integer i)) ∧ n.value? = some (.integer i) := by
  refine ⟨_, ?_, value?_of_digits⟩
  rw [numberText, Token.signed_eq]
  have hlayout := Layout.mk (decide (i.toInt < 0)) (isDigits_digits i.toInt.natAbs)
    length_digits_of_head .absent .absent
  rwa [List.append_nil, List.append_nil] at hlayout

/-- A finite number is written as a numeral that is read as this number. -/
lemma exists_layout_float {x : Binary64} (hx : x.isFinite = true) :
    ∃ n, Layout n (numberText (.float x)) ∧ n.value? = some (.float x) := by
  obtain ⟨whole, fraction, htext, hf, hback⟩ := Binary64.magnitudeText_eq hx
  have hw := isDigits_digits whole
  refine ⟨_, ?_, value?_of_fraction hx htext hw hf hback⟩
  rw [numberText, if_pos hx, Binary64.text_of_isFinite hx, htext]
  have hlayout := Layout.mk x.negative hw length_digits_of_head (.present hf) .absent
  rwa [List.append_nil] at hlayout

end Json.Numeral

end FormatExpr
