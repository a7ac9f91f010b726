import FormatExpr.Proofs.NumberText

/-!
# Significant digits

Zeros at the start of a run of digits make no difference to its value, and zeros at its end multiply
it by a power of ten. The significant digits are what is left without both. Their count is that of
the digits of the value without its factors of ten, so it can be told from the value
(`length_significant_le`, `length_digits_value_significant_le`).
-/

namespace FormatExpr.Text

/-! ### Zeros at the ends -/

lemma exists_replicate_append_dropWhile (cs : List Char) :
    ∃ k, cs = List.replicate k '0' ++ cs.dropWhile (· = '0') := by
  refine ⟨(cs.takeWhile (· = '0')).length, ?_⟩
  have hzeros : cs.takeWhile (· = '0') = List.replicate (cs.takeWhile (· = '0')).length '0' :=
    List.eq_replicate_of_mem fun c hc => by simpa using List.mem_takeWhile_imp hc
  rw [← hzeros, List.takeWhile_append_dropWhile]

lemma exists_append_replicate (cs : List Char) :
    ∃ k, cs = (cs.reverse.dropWhile (· = '0')).reverse ++ List.replicate k '0' := by
  obtain ⟨k, hk⟩ := exists_replicate_append_dropWhile cs.reverse
  refine ⟨k, ?_⟩
  have := congrArg List.reverse hk
  rwa [List.reverse_reverse, List.reverse_append, List.reverse_replicate] at this

lemma value_dropWhile_zero (cs : List Char) : value (cs.dropWhile (· = '0')) = value cs := by
  obtain ⟨k, hk⟩ := exists_replicate_append_dropWhile cs
  conv_rhs => rw [hk, value_replicate_zero_append]

/-! ### The size of a value -/

/-- A digit has a value below ten, and only zero has the value zero. -/
lemma value_singleton_bounds {c : Char} (hc : c.isDigit = true) :
    value [c] ≤ 9 ∧ (c ≠ '0' → 0 < value [c]) := by
  have hvalue : value [c] = c.toNat - 48 := by simp [value, Nat.ofDigitChars]
  have hdigit : 48 ≤ c.toNat ∧ c.toNat ≤ 57 := Char.isDigit_iff_toNat.1 hc
  rw [hvalue]
  refine ⟨by omega, fun hzero => ?_⟩
  have hne : c.toNat ≠ 48 := fun h => hzero (Char.toNat_inj.1 h)
  omega

/-- Digits of which the first is not zero denote a large number. -/
lemma le_value_of_head {c : Char} (hc : c.isDigit = true) (hzero : c ≠ '0') (cs : List Char) :
    10 ^ cs.length ≤ value (c :: cs) :=
  calc 10 ^ cs.length ≤ 10 ^ cs.length * value [c] :=
        Nat.le_mul_of_pos_right _ ((value_singleton_bounds hc).2 hzero)
    _ ≤ 10 ^ cs.length * value [c] + value cs := Nat.le_add_right _ _
    _ = value (c :: cs) := (value_append [c] cs).symm

lemma value_lt {cs : List Char} (h : ∀ c ∈ cs, c.isDigit = true) : value cs < 10 ^ cs.length := by
  induction cs with
  | nil => decide
  | cons c cs ih =>
    obtain ⟨hc, hcs⟩ := List.forall_mem_cons.1 h
    have hfirst := Nat.mul_le_mul_left (10 ^ cs.length) (value_singleton_bounds hc).1
    have hrest := ih hcs
    have hvalue : value (c :: cs) = _ := value_append [c] cs
    rw [hvalue, List.length_cons, pow_succ]
    omega

/-- Without the zeros in front there are no more digits than the size of the value calls for. -/
lemma length_dropWhile_zero_le {cs : List Char} (h : ∀ c ∈ cs, c.isDigit = true) {k : Nat}
    (hlt : value cs < 10 ^ k) : (cs.dropWhile (· = '0')).length ≤ k := by
  rw [← value_dropWhile_zero] at hlt
  cases hcs : cs.dropWhile (· = '0') with
  | nil => exact Nat.zero_le k
  | cons c rest =>
    have hc : c.isDigit = true := h c ((List.dropWhile_sublist _).subset (by rw [hcs]; simp))
    have hzero : c ≠ '0' := by
      have := List.head?_dropWhile_not (· = '0') cs
      rw [hcs] at this
      simpa using this
    rw [hcs] at hlt
    exact (Nat.pow_lt_pow_iff_right (by omega)).1 ((le_value_of_head hc hzero rest).trans_lt hlt)

/-! ### Significant digits -/

/-- The digits from the first to the last one that is not zero. -/
def significant (cs : List Char) : List Char :=
  ((cs.dropWhile (· = '0')).reverse.dropWhile (· = '0')).reverse

lemma significant_subset (cs : List Char) : significant cs ⊆ cs := by
  intro c hc
  have hc := (List.dropWhile_sublist _).subset (List.mem_reverse.1 hc)
  exact (List.dropWhile_sublist _).subset (List.mem_reverse.1 hc)

lemma exists_value_eq_mul_ten_pow (cs : List Char) :
    ∃ k, value cs = value (significant cs) * 10 ^ k := by
  obtain ⟨k, hk⟩ := exists_append_replicate (cs.dropWhile (· = '0'))
  refine ⟨k, ?_⟩
  rw [← value_dropWhile_zero, hk, value_append_replicate_zero]
  rfl

/-- There are no more significant digits than digits of the value. -/
lemma length_significant_le {cs : List Char} (h : ∀ c ∈ cs, c.isDigit = true) :
    (significant cs).length ≤ (digits (value cs)).length := by
  have hlength : (significant cs).length ≤ (cs.dropWhile (· = '0')).length := by
    have := (List.dropWhile_sublist (· = '0') (l := (cs.dropWhile (· = '0')).reverse)).length_le
    simpa [significant] using this
  refine hlength.trans (length_dropWhile_zero_le h ?_)
  exact (Nat.length_toDigits_le_iff (by decide) (length_digits_pos _)).1 le_rfl

/-- If there is a significant digit then there are as many as the digits of their value. -/
lemma length_digits_value_significant_le {cs : List Char} (h : ∀ c ∈ cs, c.isDigit = true)
    (hne : value cs ≠ 0) :
    (digits (value (significant cs))).length ≤ (significant cs).length := by
  have hlt := value_lt fun c hc => h c (significant_subset cs hc)
  have hpos : 0 < (significant cs).length := by
    rw [List.length_pos_iff]
    intro hnil
    obtain ⟨k, hk⟩ := exists_value_eq_mul_ten_pow cs
    rw [hnil] at hk
    exact hne (hk.trans (Nat.zero_mul _))
  exact (Nat.length_toDigits_le_iff (by decide) hpos).2 hlt

end FormatExpr.Text
