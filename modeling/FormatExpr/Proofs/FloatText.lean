import FormatExpr.Literal
import FormatExpr.Proofs.ShortestDecimal
import FormatExpr.Proofs.SignificantDigits

/-!
# The text of floating point numbers

A finite number is written as a decimal: a minus for the numbers with a negative sign, digits, a
point and digits. Without a fraction the digits are exact; with one they are as few as any decimal
needs to be read back as the number. Different numbers have different texts
(`Literal.display_of_finite`).
-/

namespace FormatExpr

namespace Binary64

open Text

/-- A number without a fraction is written with all its digits. -/
lemma magnitudeText_of_dvd {x : Binary64} (hx : x.isFinite = true) {n : Nat}
    (hn : x.units = n * unitsPerOne) : x.magnitudeText = digits n ++ '.' :: ['0'] := by
  have hint : x.isIntegral = true := by
    rw [isIntegral, hx, hn, Nat.mul_mod_left]
    rfl
  rw [magnitudeText, if_pos hint, hn, Nat.mul_div_cancel _ unitsPerOne_pos]

/-- Of all decimals that are rounded to a number with a fraction, none has fewer significant digits
than the shortest one. -/
lemma length_significant_shortest_le {x : Binary64} (hx : x.isFinite = true)
    (h : ¬unitsPerOne ∣ x.units) {ds : List Char} {places : Nat}
    (hds : ∀ c ∈ ds, c.isDigit = true)
    (hround : x.RoundedFrom x.negative (value ds) (10 ^ places)) :
    (digits (shortest x.rank).2).length ≤ (significant ds).length := by
  have hrank := isFinite_iff.1 hx
  have hback : readsBack x.rank places (value ds) = true :=
    readsBack_iff.2 ((roundedFrom_iff (powTen_pos places)).1 hround)
  have hinteger : ∀ n, value ds ≠ n * 10 ^ places := by
    intro n hn
    have hscaled := @readsBack_mul_ten_pow x.rank 0 n places
    rw [Nat.zero_add, ← hn, hback] at hscaled
    have hzero := shortest_places_le hrank h hscaled.symm
    have hpos := (shortest_isLeast hrank).1
    omega
  have hne : value ds ≠ 0 := fun hzero => hinteger 0 (by rw [hzero, Nat.zero_mul])
  obtain ⟨k, hk⟩ := exists_value_eq_mul_ten_pow ds
  have hlt : k < places := by
    by_contra hge
    obtain ⟨i, rfl⟩ := Nat.exists_eq_add_of_le (Nat.not_lt.1 hge)
    exact hinteger (value (significant ds) * 10 ^ i)
      (by rw [hk, Nat.mul_assoc, ← pow_add, add_comm])
  obtain ⟨i, rfl⟩ := Nat.exists_eq_add_of_le' hlt.le
  rw [hk, readsBack_mul_ten_pow] at hback
  exact (length_digits_shortest_le hrank h hback).trans (length_digits_value_significant_le hds hne)

/-- A number with a fraction is written as a decimal that is rounded to it, and none with fewer
significant digits is. -/
lemma magnitudeText_of_not_dvd {x : Binary64} (hx : x.isFinite = true)
    (h : ¬unitsPerOne ∣ x.units) :
    ∃ whole fraction, x.magnitudeText = whole ++ '.' :: fraction ∧ isDigits whole = true ∧
      isDigits fraction = true ∧
      x.RoundedFrom x.negative (value (whole ++ fraction)) (10 ^ fraction.length) ∧
      ∀ whole' fraction', isDigits whole' = true → isDigits fraction' = true →
        x.RoundedFrom x.negative (value (whole' ++ fraction')) (10 ^ fraction'.length) →
        (significant (whole ++ fraction)).length ≤ (significant (whole' ++ fraction')).length := by
  have hrank := isFinite_iff.1 hx
  have hint : ¬x.isIntegral = true := by
    rw [isIntegral, Bool.and_eq_true, beq_iff_eq]
    exact fun hint => h (Nat.dvd_of_mod_eq_zero hint.2)
  have hleast := fun ds places => @length_significant_shortest_le x hx h ds places
  have hshortest := nearestRank_shortest hrank
  rw [magnitudeText, if_neg hint]
  generalize shortest x.rank = decimal at hleast hshortest ⊢
  obtain ⟨places, n⟩ := decimal
  obtain ⟨hplaces, hback⟩ := hshortest
  obtain ⟨whole, fraction, htext, hf, hlength, hvalue⟩ := pointedDigits_eq hplaces n
  have hw := isDigits_digits whole
  have hdigits : ∀ {whole fraction : List Char}, isDigits whole = true →
      isDigits fraction = true → ∀ c ∈ whole ++ fraction, c.isDigit = true :=
    fun hw hf => List.forall_mem_append.2 ⟨(isDigits_iff.1 hw).2, (isDigits_iff.1 hf).2⟩
  refine ⟨digits whole, fraction, htext, hw, hf, ?_, ?_⟩
  · rw [hvalue, hlength]
    exact (roundedFrom_iff (powTen_pos places)).2 hback
  · intro whole' fraction' hw' hf' hround
    have hlonger := length_significant_le (hdigits hw hf)
    rw [hvalue] at hlonger
    exact hlonger.trans (hleast _ _ (hdigits hw' hf') hround)

end Binary64

namespace Literal

open Text Binary64

/-- A finite number is written as digits around a point, after a minus if its sign is negative. If
it has no fraction, then the digits before the point are those of the number and a zero stands
behind it. If it has one, then the decimal is rounded to the number, and no decimal with fewer
significant digits is. Numbers with other bits have other texts. -/
theorem display_of_finite {x : Binary64} (hx : x.isFinite = true) :
    (∃ whole fraction,
      (number (.float x)).display.toList = sign x.negative ++ (whole ++ '.' :: fraction) ∧
      isDigits whole = true ∧ isDigits fraction = true ∧
      (∀ n, x.units = n * unitsPerOne → whole = digits n ∧ fraction = ['0']) ∧
      (¬unitsPerOne ∣ x.units →
        x.RoundedFrom x.negative (value (whole ++ fraction)) (10 ^ fraction.length) ∧
        ∀ whole' fraction', isDigits whole' = true → isDigits fraction' = true →
          x.RoundedFrom x.negative (value (whole' ++ fraction')) (10 ^ fraction'.length) →
          (significant (whole ++ fraction)).length
            ≤ (significant (whole' ++ fraction')).length)) ∧
    ∀ y : Binary64, y.isFinite = true → y.toBits ≠ x.toBits →
      (number (.float y)).display ≠ (number (.float x)).display := by
  refine ⟨?_, ?_⟩
  · have htext : (number (.float x)).text = sign x.negative ++ x.magnitudeText :=
      text_of_isFinite hx
    rw [display, String.toList_ofList, htext]
    by_cases hdvd : unitsPerOne ∣ x.units
    · obtain ⟨m, hm⟩ := exists_eq_mul_left_of_dvd hdvd
      refine ⟨digits m, ['0'], ?_, isDigits_digits m, by decide, ?_, fun h => absurd hdvd h⟩
      · rw [magnitudeText_of_dvd hx hm]
      · intro n hn
        rw [Nat.eq_of_mul_eq_mul_right unitsPerOne_pos (hm.symm.trans hn)]
        exact ⟨rfl, rfl⟩
    · obtain ⟨whole, fraction, hmagnitude, hw, hf, hshortest⟩ := magnitudeText_of_not_dvd hx hdvd
      refine ⟨whole, fraction, by rw [hmagnitude], hw, hf, ?_, fun _ => hshortest⟩
      intro n hn
      exact absurd (hn ▸ Nat.dvd_mul_left _ _) hdvd
  · intro y hy hne htext
    have hread : ∀ {z : Binary64}, z.isFinite = true →
        Token.number? (Number.float z).text = some (.float z) :=
      fun hz => Token.number?_text (n := .float _) hz
    have heq : some (Number.float y) = some (.float x) := by
      rw [← hread hy, ← hread hx]
      exact congrArg Token.number? (String.ofList_inj.1 htext)
    injection heq with heq
    injection heq with heq
    exact hne (congrArg toBits heq)

/-- The negative of a quarter is written with a fraction, and not as zero is. -/
theorem display_of_finite_quarter :
    (∃ whole fraction,
      (number (.float (nearest true 1 4))).display.toList = '-' :: (whole ++ '.' :: fraction) ∧
      (nearest true 1 4).RoundedFrom true (value (whole ++ fraction)) (10 ^ fraction.length)) ∧
    (number (.float (zero true))).display ≠ (number (.float (nearest true 1 4))).display := by
  have hx : (nearest true 1 4).isFinite = true := by decide +kernel
  obtain ⟨⟨whole, fraction, htext, -, -, -, hfraction⟩, hother⟩ := display_of_finite hx
  refine ⟨⟨whole, fraction, htext, (hfraction ?_).1⟩, hother _ (by decide) ?_⟩
  · decide +kernel
  · decide +kernel

end Literal

end FormatExpr
