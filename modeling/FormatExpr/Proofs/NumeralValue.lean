import FormatExpr.Proofs.Midpoints
import FormatExpr.Proofs.SignificantDigits

/-!
# The value of JSON numerals

A numeral has an exact value, its digits times a power of ten (`Json.Numeral.num`,
`Json.Numeral.den`). It denotes an integer if it is written as one that fits into 64 bits, and a
number that is closest to its exact value otherwise (`Json.Numeral.Denotes`). The reader finds such
a number for every numeral that is not too large for a finite one
(`Json.Numeral.exists_value?_denotes`).
-/

namespace FormatExpr.Json.Numeral

open Text Binary64

/-! ### Exact values -/

/-- The digits of a numeral before and after the point. -/
def allDigits (n : Numeral) : List Char :=
  n.whole ++ n.fraction.getD []

/-- The power of ten that the digits are multiplied by. -/
def scale (n : Numeral) : Int :=
  n.exponent.getD 0 - (n.fraction.getD []).length

/-- The magnitude of a numeral is the quotient of `num` and `den`. -/
def num (n : Numeral) : Nat :=
  value n.allDigits * 10 ^ n.scale.toNat

/-- The magnitude of a numeral is the quotient of `num` and `den`. -/
def den (n : Numeral) : Nat :=
  10 ^ (-n.scale).toNat

/-- The digits before the point with the sign of the numeral. -/
def signed (n : Numeral) : Int :=
  if n.negative then -(value n.whole : Int) else value n.whole

/-- The numeral is written as an integer, and it is one of 64 bits. Zero with a minus is none. -/
def IsInteger (n : Numeral) : Prop :=
  n.fraction = none ∧ n.exponent = none ∧ (-2 ^ 63 ≤ n.signed ∧ n.signed < 2 ^ 63) ∧
    ¬(n.negative = true ∧ n.signed = 0)

/-- The number has the sign of the numeral, and no magnitude is nearer to that of the numeral. Of
two equally near ones it is the even one if the digits of the numeral are few enough to be read one
by one. -/
structure RoundsTo (n : Numeral) (x : Binary64) : Prop where
  negative_eq : x.negative = n.negative
  isClosest : IsClosest n.num n.den x.rank
  roundedFrom : n.significant.length ≤ digitLimit → x.RoundedFrom n.negative n.num n.den

/-- The number is the value of the numeral. -/
inductive Denotes (n : Numeral) : Number → Prop where
  | integer {i : Int64} (h : n.IsInteger) (hi : i.toInt = n.signed) : Denotes n (.integer i)
  | float {x : Binary64} (h : ¬n.IsInteger) (hfinite : x.isFinite = true) (hx : n.RoundsTo x) :
      Denotes n (.float x)

/-- What a numeral denotes is left of it once it is written. -/
lemma Denotes.written_eq {n : Numeral} {m : Number} (h : n.Denotes m) :
    (Value.number m).written = .number m := by
  cases h with
  | integer => rfl
  | float _ hfinite _ => exact if_pos hfinite

lemma den_pos (n : Numeral) : 0 < n.den := by
  rw [den]
  positivity

/-! ### Zeros at the ends -/

/-- A fraction is its places and zeros after them. -/
lemma exists_places_append_replicate (n : Numeral) :
    ∃ k, n.fraction.getD [] = n.places ++ List.replicate k '0' :=
  exists_append_replicate _

lemma value_significant (n : Numeral) : value n.significant = value (n.whole ++ n.places) :=
  value_dropWhile_zero _

/-- The digits of a numeral are its significant digits and zeros, as far as values go. -/
lemma exists_value_allDigits_eq (n : Numeral) :
    ∃ k, value n.allDigits = value n.significant * 10 ^ k ∧
      (n.fraction.getD []).length = n.places.length + k := by
  obtain ⟨k, hk⟩ := n.exists_places_append_replicate
  refine ⟨k, ?_, ?_⟩
  · rw [allDigits, hk, ← List.append_assoc, value_append_replicate_zero, value_significant]
  · rw [hk, List.length_append, List.length_replicate]

/-- The exact value of a numeral is that of its significant digits, times a power of ten. -/
lemma significant_mul_den (n : Numeral) :
    let e := n.exponent.getD 0 - n.places.length
    value n.significant * 10 ^ e.toNat * n.den = n.num * 10 ^ (-e).toNat := by
  obtain ⟨k, hvalue, hlength⟩ := n.exists_value_allDigits_eq
  have hscale : n.exponent.getD 0 - n.places.length = n.scale + k := by
    rw [scale, hlength]
    omega
  dsimp only
  rw [hscale, num, den, hvalue]
  exact shift_ten_pow _ k _

lemma isDigit_of_mem_significant {n : Numeral} (h : ∀ c ∈ n.allDigits, c.isDigit = true) {c : Char}
    (hc : c ∈ n.significant) : c.isDigit = true := by
  obtain ⟨k, hk⟩ := n.exists_places_append_replicate
  apply h
  rw [allDigits, hk, ← List.append_assoc]
  exact List.mem_append_left _ ((List.dropWhile_sublist _).subset hc)

/-- There are no more significant digits than the size of the digits calls for. -/
lemma length_significant_le {n : Numeral} (h : ∀ c ∈ n.allDigits, c.isDigit = true) {k : Nat}
    (hlt : value n.allDigits < 10 ^ k) : n.significant.length ≤ k := by
  obtain ⟨i, hvalue, -⟩ := n.exists_value_allDigits_eq
  have hle : value n.significant ≤ value n.allDigits := by
    rw [hvalue]
    exact Nat.le_mul_of_pos_right _ (by positivity)
  have hdrop := length_dropWhile_zero_le (fun c => isDigit_of_mem_significant h) (hle.trans_lt hlt)
  rwa [significant, List.dropWhile_idempotent] at hdrop

/-- The first significant digit is not zero, so that many of them make up a large number. -/
lemma le_value_take_significant {n : Numeral} (h : ∀ c ∈ n.significant, c.isDigit = true) {k : Nat}
    (hk : k < n.significant.length) : 10 ^ k ≤ value (n.significant.take (k + 1)) := by
  have hhead := List.head?_dropWhile_not (· = '0') (n.whole ++ n.places)
  rw [← significant] at hhead
  generalize n.significant = ds at h hk hhead
  cases ds with
  | nil => exact absurd hk (Nat.not_lt_zero k)
  | cons c ds =>
    have hzero : c ≠ '0' := by simpa using hhead
    have hlength : (ds.take k).length = k := List.length_take_of_le (Nat.le_of_lt_succ hk)
    have hle := le_value_of_head (h c List.mem_cons_self) hzero (ds.take k)
    rwa [hlength] at hle

/-- A long numeral is made up of the digits that are read one by one and the rest. -/
lemma exists_rest {n : Numeral} (h : ∀ c ∈ n.significant, c.isDigit = true)
    (hlong : digitLimit < n.significant.length) :
    ∃ k rest : Nat, (n.significant.length : Int) - digitLimit - 1 = k ∧ rest < 10 ^ (k + 1) ∧
      10 ^ 767 ≤ value (n.significant.take digitLimit) ∧
      value n.significant = value (n.significant.take digitLimit) * 10 ^ (k + 1) + rest := by
  obtain ⟨k, hk⟩ := Nat.exists_eq_add_of_lt hlong
  have hlarge := le_value_take_significant h (k := 767) (lt_trans (by decide) hlong)
  have hlength : (n.significant.drop digitLimit).length = k + 1 := by
    rw [List.length_drop, hk]
    omega
  have hrest : value (n.significant.drop digitLimit) < _ :=
    value_lt fun c hc => h c (List.mem_of_mem_drop hc)
  have hvalue := value_append (n.significant.take digitLimit) (n.significant.drop digitLimit)
  rw [List.take_append_drop, hlength, Nat.mul_comm] at hvalue
  rw [hlength] at hrest
  exact ⟨k, _, by rw [hk]; push_cast; ring, hrest, hlarge, hvalue⟩

/-! ### Rounding -/

/-- The reader rounds a numeral, however many digits it has. -/
lemma roundsTo_ofDecimal {n : Numeral} (h : ∀ c ∈ n.allDigits, c.isDigit = true) :
    n.RoundsTo (Binary64.ofDecimal n.negative n.magnitude.1 n.magnitude.2) := by
  have hexact := n.significant_mul_den
  have hpos : ∀ e : Int, 0 < 10 ^ (-e).toNat := fun e => by positivity
  rw [ofDecimal_eq, magnitude]
  dsimp only at hexact ⊢
  generalize n.exponent.getD 0 - n.places.length = e at hexact
  split_ifs with hshort
  · have hnearest := isNearest_nearestRank n.num n.den_pos
    rw [← nearestRank_congr (hpos e) n.den_pos hexact] at hnearest
    exact ⟨rfl, hnearest.isClosest, fun _ => ⟨rfl, hnearest⟩⟩
  · obtain ⟨k, rest, hk, hrest, hlarge, hvalue⟩ :=
      exists_rest (fun c => isDigit_of_mem_significant h) (Nat.not_le.1 hshort)
    rw [hvalue] at hexact
    have hclosest := (isClosest_of_long hlarge hrest e).congr (hpos e) hexact
    rw [← hk] at hclosest
    exact ⟨rfl, hclosest, fun hle => absurd hle hshort⟩

lemma isFinite_of_roundsTo {n : Numeral} {x : Binary64} (hx : n.RoundsTo x)
    (h : n.num < (2 ^ 1024 - 2 ^ 970) * n.den) : x.isFinite = true := by
  have hne : x.rank ≠ infinityRank := by
    intro hrank
    have hclosest := hx.isClosest
    rw [hrank] at hclosest
    exact absurd (hclosest.le_of_infinityRank n.den_pos) (Nat.not_le.2 h)
  exact decide_eq_true (lt_of_le_of_ne hx.isClosest.rank_le hne)

/-! ### Values -/

lemma signed_eq_zero_iff {n : Numeral} : n.signed = 0 ↔ value n.whole = 0 := by
  rw [signed]
  split_ifs <;> omega

lemma value?_of_isInteger {n : Numeral} (h : n.IsInteger) :
    ∃ i : Int64, n.value? = some (.integer i) ∧ i.toInt = n.signed := by
  obtain ⟨hf, he, hrange, hzero⟩ := h
  obtain ⟨i, hi, hn⟩ | ⟨hlarge, -⟩ :=
    Number.ofInteger_cases n.negative (value n.whole) (v := n.signed) rfl
  · refine ⟨i, ?_, hi⟩
    rw [signed_eq_zero_iff] at hzero
    simp only [value?, hf, he, if_neg hzero, hn]
  · exact absurd hrange hlarge

/-- Zero with a minus is rounded to the negative zero. -/
lemma nearest?_of_zero {n : Numeral} (hdigits : ∀ c ∈ n.allDigits, c.isDigit = true)
    (hf : n.fraction = none) (he : n.exponent = none) (hnegative : n.negative = true)
    (hzero : value n.whole = 0) : n.nearest? = some (.float (.zero true)) := by
  have hplaces : n.places = [] := by
    rw [places, hf]
    rfl
  have hsignificant : n.significant = [] := by
    refine List.length_eq_zero_iff.1 (Nat.le_zero.1 (length_significant_le hdigits ?_))
    rw [allDigits, hf, Option.getD_none, List.append_nil, hzero]
    exact Nat.one_pos
  rw [nearest?, magnitude, hsignificant, hplaces, he, hnegative]
  rfl

/-- A numeral that is not an integer is rounded. -/
lemma value?_of_not_isInteger {n : Numeral} (hdigits : ∀ c ∈ n.allDigits, c.isDigit = true)
    (h : ¬n.IsInteger) : n.value? = n.nearest? := by
  rw [value?]
  split
  · next hf he =>
    dsimp only
    split_ifs with hzero
    · exact (nearest?_of_zero hdigits hf he hzero.1 hzero.2).symm
    · obtain ⟨i, hi, hn⟩ | ⟨-, hn⟩ :=
        Number.ofInteger_cases n.negative (value n.whole) (v := n.signed) rfl
      · rw [← signed_eq_zero_iff] at hzero
        exact absurd ⟨hf, he, hi ▸ ⟨i.le_toInt, i.toInt_lt⟩, hzero⟩ h
      · rw [hn]
  · rfl

/-- A numeral has a value, unless it is too large for a finite number. -/
theorem exists_value?_denotes {n : Numeral} (hdigits : ∀ c ∈ n.allDigits, c.isDigit = true)
    (h : n.num < (2 ^ 1024 - 2 ^ 970) * n.den) : ∃ m, n.value? = some m ∧ n.Denotes m := by
  by_cases hinteger : n.IsInteger
  · obtain ⟨i, hvalue, hi⟩ := value?_of_isInteger hinteger
    exact ⟨_, hvalue, .integer hinteger hi⟩
  · have hx := roundsTo_ofDecimal hdigits
    have hfinite := isFinite_of_roundsTo hx h
    refine ⟨_, ?_, .float hinteger hfinite hx⟩
    rw [value?_of_not_isInteger hdigits hinteger, nearest?, if_pos hfinite]

end FormatExpr.Json.Numeral
