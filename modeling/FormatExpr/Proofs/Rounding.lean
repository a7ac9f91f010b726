import Mathlib
import FormatExpr.Binary64.Shortest

/-!
# Exact rounding

A quotient that is itself a 64-bit number is rounded to that number (`nearestRank_of_eq`). So the
exact decimal of a number reads back as the number, and so does the shortest one, which is chosen
for it (`nearestRank_shortest`).

A decimal may be read without its power of ten when that decides nothing; this changes no
answer (`ofDecimal_neg`).
-/

namespace FormatExpr

lemma Text.powTen_eq (k : Nat) : powTen k = 10 ^ k := rfl

lemma Text.powTen_pos (k : Nat) : 0 < powTen k := by
  rw [powTen_eq]
  positivity

lemma divNearestEven_mul (m : Nat) {den : Nat} (hden : 0 < den) :
    divNearestEven (m * den) den = m := by
  rw [divNearestEven, Nat.mul_div_cancel m hden, Nat.mul_mod_left, if_pos (by omega)]

lemma divNearestEven_eq_zero {num den : Nat} (h : 2 * num < den) : divNearestEven num den = 0 := by
  have hlt : num < den := by omega
  rw [divNearestEven, Nat.div_eq_of_lt hlt, Nat.mod_eq_of_lt hlt, if_pos h]

namespace Binary64

lemma isFinite_iff {x : Binary64} : x.isFinite = true ↔ x.rank < infinityRank :=
  decide_eq_true_iff

lemma unitsPerOne_eq : unitsPerOne = 2 ^ 1074 :=
  have h : ∀ k, 1 <<< k = 2 ^ k := Nat.one_shiftLeft
  h 1074

lemma unitsPerOne_pos : 0 < unitsPerOne := by
  rw [unitsPerOne_eq]
  positivity

lemma ranksPerExponent_eq : ranksPerExponent = 2 ^ 52 := by
  decide

/-! ### Quotients that are numbers -/

lemma log2_eq_of_lt {n k : Nat} (hlo : 2 ^ k ≤ n) (hhi : n < 2 ^ (k + 1)) : n.log2 = k := by
  have hn : n ≠ 0 := by
    have := Nat.two_pow_pos k
    omega
  exact (Nat.log2_eq_iff hn).2 ⟨hlo, hhi⟩

/-- The binary exponent that rounding finds for the magnitude of a rank. -/
lemma log2_unitsOfRank (rank : Nat) :
    (unitsOfRank rank).log2 - 52 = rank / ranksPerExponent - 1 := by
  rw [unitsOfRank]
  split_ifs with h
  · have hlog : rank.log2 ≤ 51 := by
      by_cases h0 : rank = 0
      · simp [h0]
      · have := (Nat.log2_lt h0).2 (ranksPerExponent_eq ▸ h)
        omega
    rw [Nat.div_eq_of_lt h]
    omega
  · have hmod := Nat.mod_lt rank (show 0 < ranksPerExponent by decide)
    rw [ranksPerExponent_eq] at hmod ⊢
    generalize rank % 2 ^ 52 = m at hmod ⊢
    generalize rank / 2 ^ 52 - 1 = e
    have hlog : ((2 ^ 52 + m) <<< e).log2 = 52 + e := by
      rw [Nat.shiftLeft_eq]
      apply log2_eq_of_lt
      · rw [pow_add]
        exact Nat.mul_le_mul_right _ (Nat.le_add_right _ _)
      · rw [show 52 + e + 1 = 53 + e by omega, pow_add]
        refine Nat.mul_lt_mul_of_pos_right ?_ (Nat.two_pow_pos e)
        omega
    omega

/-- A rank is made up of its binary exponent and the significand of its magnitude. -/
lemma rank_eq (rank : Nat) :
    ∃ m, unitsOfRank rank = m <<< (rank / ranksPerExponent - 1) ∧
      (rank / ranksPerExponent - 1) * ranksPerExponent + m = rank := by
  rw [unitsOfRank]
  split_ifs with h
  · refine ⟨rank, ?_, ?_⟩ <;> rw [Nat.div_eq_of_lt h] <;> simp
  · refine ⟨_, rfl, ?_⟩
    have hpos : 0 < rank / ranksPerExponent :=
      Nat.div_pos (by omega) (by decide)
    have hdiv := Nat.div_add_mod rank ranksPerExponent
    obtain ⟨e, he⟩ : ∃ e, rank / ranksPerExponent = e + 1 := ⟨_, (Nat.succ_pred hpos.ne').symm⟩
    rw [he] at hdiv ⊢
    rw [Nat.add_sub_cancel]
    rw [Nat.mul_add, Nat.mul_one, Nat.mul_comm] at hdiv
    omega

/-- A quotient that is the magnitude of a number is rounded to that number. -/
theorem nearestRank_of_eq {num den rank : Nat} (hden : 0 < den) (hrank : rank < infinityRank)
    (h : num * unitsPerOne = unitsOfRank rank * den) : nearestRank num den = rank := by
  obtain ⟨m, hm, hsum⟩ := rank_eq rank
  have hdiv :
      divNearestEven (unitsOfRank rank * den) (den <<< (rank / ranksPerExponent - 1)) = m := by
    rw [hm, Nat.shiftLeft_eq, Nat.shiftLeft_eq, Nat.mul_assoc, Nat.mul_comm (2 ^ _) den]
    exact divNearestEven_mul m (Nat.mul_pos hden (Nat.two_pow_pos _))
  rw [nearestRank, h, Nat.mul_div_cancel _ hden, log2_unitsOfRank, hdiv, hsum]
  exact Nat.min_eq_right hrank.le

/-! ### Decimals -/

lemma nearestRank_eq_zero {num den : Nat} (h : 2 * (num * unitsPerOne) < den) :
    nearestRank num den = 0 := by
  have hdiv : num * unitsPerOne / den = 0 := Nat.div_eq_of_lt (by omega)
  rw [nearestRank, hdiv, Nat.log2_zero, Nat.zero_sub, Nat.shiftLeft_zero,
    divNearestEven_eq_zero h]
  rfl

/-- Reading a run of digits is rounding the integer that it denotes. -/
theorem ofDecimal_zero (negative : Bool) (n : Nat) :
    ofDecimal negative n 0 = nearest negative n 1 := by
  have hbound : ¬310 ≤ 0 := by omega
  rw [show (0 : Int) = Int.ofNat 0 from rfl, ofDecimal, Text.powTen_eq, pow_zero, Nat.mul_one,
    if_neg hbound]
  split_ifs with h
  · have hzero : nearestRank 0 1 = 0 := nearestRank_eq_zero (by simp)
    simp [nearest, zero, h, hzero]
  · rfl

lemma two_pow_le_ten_pow {j k : Nat} (h : j ≤ 3 * k) : 2 ^ j ≤ 10 ^ k :=
  calc 2 ^ j ≤ 2 ^ (3 * k) := Nat.pow_le_pow_right (by omega) h
    _ = 8 ^ k := by rw [pow_mul]; norm_num
    _ ≤ 10 ^ k := Nat.pow_le_pow_left (by omega) k

/-- Reading a decimal is rounding the quotient it denotes. -/
theorem ofDecimal_neg (negative : Bool) (n places : Nat) :
    ofDecimal negative n (-(places : Int)) = nearest negative n (Text.powTen places) := by
  cases places with
  | zero => exact ofDecimal_zero negative n
  | succ k =>
    rw [show (-((k + 1 : Nat) : Int)) = Int.negSucc k from rfl, ofDecimal]
    split_ifs with h
    · -- the quotient is below half a unit: `n < 2 ^ (log2 n + 1)` and `2 ^ 3 ≤ 10`
      have hlt : 2 * (n * unitsPerOne) < Text.powTen (k + 1) := by
        have hn : n < 2 ^ (n.log2 + 1) := Nat.lt_log2_self
        calc 2 * (n * unitsPerOne) = n * 2 ^ (1074 + 1) := by
              rw [unitsPerOne_eq, pow_succ 2 1074, Nat.mul_comm 2, Nat.mul_assoc]
          _ < 2 ^ (n.log2 + 1) * 2 ^ (1074 + 1) :=
              Nat.mul_lt_mul_of_pos_right hn (by positivity)
          _ = 2 ^ (n.log2 + 1076) := by rw [← pow_add]
          _ ≤ Text.powTen (k + 1) := two_pow_le_ten_pow h
      rw [nearest, zero]
      congr 1
      exact (nearestRank_eq_zero hlt).symm
    · rfl

/-- Rounding never gives NaN. -/
lemma rank_ofDecimal_le (negative : Bool) (n : Nat) (exponent : Int) :
    (ofDecimal negative n exponent).rank ≤ infinityRank := by
  have hzero : (zero negative).rank ≤ infinityRank := Nat.zero_le _
  have hnearest : ∀ num den, (nearest negative num den).rank ≤ infinityRank :=
    fun num den => Nat.min_le_left _ _
  cases exponent with
  | ofNat k =>
    rw [ofDecimal]
    split_ifs
    · exact hzero
    · exact le_rfl
    · exact hnearest _ _
  | negSucc k =>
    rw [ofDecimal]
    split_ifs
    · exact hzero
    · exact hnearest _ _

/-! ### The shortest decimal -/

lemma readsBack_of_decimalAt? {rank places n : Nat} (h : decimalAt? rank places = some n) :
    nearestRank n (Text.powTen places) = rank := by
  rw [decimalAt?] at h
  suffices hback : readsBack rank places n = true by simpa [readsBack] using hback
  split_ifs at h with hboth hnear hbelow habove
  · cases h
    exact (Bool.and_eq_true_iff.1 hboth).1
  · cases h
    exact (Bool.and_eq_true_iff.1 hboth).2
  · cases h
    exact hbelow
  · cases h
    exact habove

/-- The shortest decimal of a number has digits after the point and reads back as the number. -/
theorem nearestRank_shortest {rank : Nat} (hrank : rank < infinityRank) :
    0 < (shortest rank).1 ∧
      nearestRank (shortest rank).2 (Text.powTen (shortest rank).1) = rank := by
  rw [shortest]
  cases hfound : (List.range' 1 1073).findSome? fun places =>
      (decimalAt? rank places).map fun n => (places, n) with
  | some found =>
    obtain ⟨places, hmem, hat⟩ := List.exists_of_findSome?_eq_some hfound
    obtain ⟨n, hn, rfl⟩ := Option.map_eq_some_iff.1 hat
    rw [List.mem_range'_1] at hmem
    exact ⟨hmem.1, readsBack_of_decimalAt? hn⟩
  | none =>
    refine ⟨by simp, nearestRank_of_eq (Text.powTen_pos _) hrank ?_⟩
    -- a power of ten is a multiple of the power of two in the same place
    have hten : Text.powTen 1074 = 5 ^ 1074 * unitsPerOne := by
      rw [Text.powTen_eq, unitsPerOne_eq, show 10 = 5 * 2 from rfl, mul_pow]
    simp only [Option.getD_none]
    rw [hten, ← Nat.mul_assoc, Nat.mul_div_cancel _ unitsPerOne_pos]

end Binary64

end FormatExpr
