import FormatExpr.Json.Numeral
import FormatExpr.Proofs.RoundingOrder

/-!
# Midpoints and long decimals

A decimal is a natural number times a power of ten. Between two neighbouring decimals of
`digitLimit` digits there is no midpoint of two neighbouring magnitudes
(`le_midpoint_of_lt`): such a midpoint has at most 767 significant digits. So it does not matter
for the closest magnitude where between the two a decimal with more digits lies
(`IsNearest.isClosest_of_between`), except that a midpoint may be the lower one of the two.
-/

namespace FormatExpr

namespace Binary64

/-! ### Equal quotients -/

variable {num den num' den' rank : Nat}

lemma distance_eq_of_mul_eq (h : num * den' = num' * den) (rank : Nat) :
    distance num den rank * den' = distance num' den' rank * den := by
  rw [← distance_mul, ← distance_mul, h, Nat.mul_comm den]

lemma IsClosest.congr (hden : 0 < den) (h : num * den' = num' * den)
    (hclosest : IsClosest num den rank) : IsClosest num' den' rank := by
  refine ⟨hclosest.rank_le, fun rank' hrank' => ?_⟩
  apply Nat.le_of_mul_le_mul_right _ hden
  rw [← distance_eq_of_mul_eq h, ← distance_eq_of_mul_eq h]
  exact Nat.mul_le_mul_right den' (hclosest.closest rank' hrank')

lemma nearestRank_congr (hden : 0 < den) (hden' : 0 < den') (h : num * den' = num' * den) :
    nearestRank num den = nearestRank num' den' := by
  rw [← nearestRank_mul num hden hden', ← nearestRank_mul num' hden' hden, h, Nat.mul_comm den]

/-! ### Midpoints -/

/-- Twice the midpoint between a magnitude and the next one has 54 binary digits and zeros. -/
lemma exists_midpoint_eq (rank : Nat) :
    ∃ c e, c < 2 ^ 54 ∧ unitsOfRank rank + unitsOfRank (rank + 1) = c * 2 ^ e := by
  obtain ⟨m, hrank, hm, he⟩ := exists_steps rank
  have hunits := unitsOfRank_eq hm.le he
  rw [← hrank] at hunits
  rw [ranksPerExponent_eq, ← pow_succ'] at hm
  refine ⟨2 * m + 1, rank / ranksPerExponent - 1, by omega, ?_⟩
  rw [unitsOfRank_succ, hunits]
  ring

/-- A midpoint has fewer than 768 digits before the point. -/
lemma midpoint_lt (h : rank < infinityRank) :
    unitsOfRank rank + unitsOfRank (rank + 1) < 10 ^ 767 * (2 * unitsPerOne) := by
  have hthis := unitsOfRank_strictMono h
  have hnext := unitsOfRank_strictMono.monotone (show rank + 1 ≤ infinityRank from h)
  have htop : unitsOfRank infinityRank ≤ 10 ^ 767 * unitsPerOne := by
    rw [unitsOfRank_infinityRank]
    exact Nat.mul_le_mul_right _ (two_pow_le_ten_pow (by omega))
  rw [Nat.mul_left_comm]
  omega

lemma two_pow_add_units (k : Nat) : 2 ^ (k + (1074 + 1)) = 2 ^ k * (2 * unitsPerOne) := by
  have hpow : ∀ m, 2 ^ (k + (m + 1)) = 2 ^ k * (2 * 2 ^ m) := fun m => by
    rw [pow_add, pow_succ']
  rw [hpow, unitsPerOne_eq]

/-- A midpoint with places of its own has no more than 767 digits. -/
lemma midpoint_digits_lt {c e p : Nat} (hc : c < 2 ^ 54) (hp : e + p ≤ 1074) :
    c * 5 ^ p * 2 ^ (e + p) < 10 ^ 767 * (2 * unitsPerOne) := by
  obtain ⟨five, hfive, hdigits⟩ : ∃ five, 5 ^ p ≤ five ∧ 2 ^ 53 * five < 10 ^ 767 :=
    ⟨5 ^ 1074, Nat.pow_le_pow_right (by omega) (by omega), by decide +kernel⟩
  have hpow : ∀ k, e + p ≤ k → 2 ^ (e + p) ≤ 2 ^ k := fun k => Nat.pow_le_pow_right (by omega)
  have htwo : 2 ^ (e + p) ≤ unitsPerOne := by
    rw [unitsPerOne_eq]
    exact hpow 1074 hp
  calc c * 5 ^ p * 2 ^ (e + p) ≤ 2 ^ 54 * five * unitsPerOne :=
        Nat.mul_le_mul (Nat.mul_le_mul hc.le hfive) htwo
    _ = 2 ^ 53 * five * (2 * unitsPerOne) := by ring
    _ < 10 ^ 767 * (2 * unitsPerOne) :=
        Nat.mul_lt_mul_of_pos_right hdigits (Nat.mul_pos (by omega) unitsPerOne_pos)

/-- No midpoint lies between two neighbouring decimals with as many digits as numerals are read
with, when these stand before or behind the point. -/
theorem le_midpoint_of_lt {n i j : Nat} (hn : 10 ^ 767 ≤ n) (hrank : rank < infinityRank)
    (h : n * 10 ^ i * (2 * unitsPerOne)
      < (unitsOfRank rank + unitsOfRank (rank + 1)) * 10 ^ j) :
    (n + 1) * 10 ^ i * (2 * unitsPerOne)
      ≤ (unitsOfRank rank + unitsOfRank (rank + 1)) * 10 ^ j := by
  have hlarge := midpoint_lt hrank
  have hdigits := @midpoint_digits_lt
  have hunits := two_pow_add_units
  obtain ⟨c, e, hc, hmid⟩ := exists_midpoint_eq rank
  rw [hmid] at h hlarge ⊢
  generalize 2 * unitsPerOne = unit at *
  -- a decimal of this size without places is larger than every midpoint
  have hij : i ≤ j := by
    by_contra hlt
    have hbound : 10 ^ 767 * 10 ^ j ≤ n * 10 ^ i :=
      Nat.mul_le_mul hn (Nat.pow_le_pow_right (by omega) (by omega))
    have hmid := Nat.mul_lt_mul_of_pos_right hlarge (show 0 < 10 ^ j by positivity)
    rw [Nat.mul_right_comm (10 ^ 767)] at hmid
    exact absurd (h.trans hmid) (Nat.not_lt.2 (Nat.mul_le_mul_right unit hbound))
  obtain ⟨p, rfl⟩ := Nat.exists_eq_add_of_le hij
  have hscaled : c * 2 ^ e * 10 ^ (i + p) = c * 5 ^ p * 2 ^ (e + p) * 10 ^ i := by
    rw [show 10 = 5 * 2 from rfl, pow_add (5 * 2) i p, mul_pow 5 2 p, pow_add 2 e p]
    ring
  rw [hscaled, Nat.mul_right_comm] at h ⊢
  have h := Nat.lt_of_mul_lt_mul_right h
  apply Nat.mul_le_mul_right
  rcases Nat.lt_or_ge 1074 (e + p) with hlt | hge
  · -- the midpoint is an integer in the last place of the decimal
    obtain ⟨k, hk⟩ := Nat.exists_eq_add_of_le' hlt
    rw [hk, hunits, ← Nat.mul_assoc] at h ⊢
    exact Nat.mul_le_mul_right _ (Nat.lt_of_mul_lt_mul_right h)
  · have hshort := (hdigits hc hge).trans_le (Nat.mul_le_mul_right unit hn)
    exact absurd h hshort.not_gt

/-! ### Quotients between two decimals -/

/-- A magnitude that is nearest to a quotient is closest to another one too, if no midpoint lies
between two bounds that both quotients keep to. -/
lemma IsNearest.isClosest_of_between {low high : Nat} (hden : 0 < den)
    (hgap : ∀ rank < infinityRank,
      low * (2 * unitsPerOne) < (unitsOfRank rank + unitsOfRank (rank + 1)) * den →
        high * (2 * unitsPerOne) ≤ (unitsOfRank rank + unitsOfRank (rank + 1)) * den)
    (h : IsNearest num den rank) (hlow : low < num) (hhigh : num < high) (hlow' : low ≤ num')
    (hhigh' : num' < high) : IsClosest num' den rank := by
  have hunit := unitsPerOne_pos
  have hbounds : low * unitsPerOne < num * unitsPerOne ∧ num * unitsPerOne < high * unitsPerOne ∧
      low * unitsPerOne ≤ num' * unitsPerOne ∧ num' * unitsPerOne < high * unitsPerOne :=
    ⟨Nat.mul_lt_mul_of_pos_right hlow hunit, Nat.mul_lt_mul_of_pos_right hhigh hunit,
      Nat.mul_le_mul_right _ hlow', Nat.mul_lt_mul_of_pos_right hhigh' hunit⟩
  simp only [Nat.mul_left_comm _ 2, Nat.add_mul] at hgap
  refine ⟨h.rank_le, fun rank' hrank' => ?_⟩
  have hmono := fun {a b : Nat} (hab : a ≤ b) =>
    Nat.mul_le_mul_right den (unitsOfRank_strictMono.monotone hab)
  rcases Nat.lt_trichotomy rank' rank with hlt | rfl | hgt
  · -- the magnitude before this one lies between it and the other one
    obtain ⟨before, rfl⟩ := Nat.exists_eq_succ_of_ne_zero (Nat.ne_zero_of_lt hlt)
    have hside := h.nearest before (Nat.le_of_lt h.rank_le) (Nat.lt_succ_self before).ne
    have hmid := hgap before h.rank_le
    have hother := hmono (Nat.le_of_lt_succ hlt)
    have hthis := unitsOfRank_mul_lt hden (Nat.lt_succ_self before)
    simp only [distance, Nat.dist, Nat.succ_eq_add_one] at hside hthis ⊢
    omega
  · exact le_rfl
  · -- the magnitude after this one lies between it and the other one
    have hside := h.nearest (rank + 1) (hgt.trans_le hrank') (Nat.lt_succ_self rank).ne'
    have hmid := hgap rank (hgt.trans_le hrank')
    have hother := hmono hgt
    have hthis := unitsOfRank_mul_lt hden (Nat.lt_succ_self rank)
    simp only [distance, Nat.dist, Nat.succ_eq_add_one] at hside hthis hother ⊢
    omega

/-! ### Long decimals -/

/-- Zeros at the end of a natural number may be counted by its power of ten instead. -/
lemma shift_ten_pow (n k : Nat) (e : Int) :
    n * 10 ^ (e + k).toNat * 10 ^ (-e).toNat
      = n * 10 ^ k * 10 ^ e.toNat * 10 ^ (-(e + k)).toNat := by
  have hcount : (e + k).toNat + (-e).toNat = k + e.toNat + (-(e + k)).toNat := by omega
  rw [Nat.mul_assoc, ← pow_add, hcount, pow_add, pow_add, ← Nat.mul_assoc, ← Nat.mul_assoc]

/-- If `rest` has `k + 1` digits at the end of a long decimal, then the magnitude that is nearest to
the decimal with a single digit one in place of them is closest to the decimal itself. -/
theorem isClosest_of_long {n rest k : Nat} (hn : 10 ^ 767 ≤ n) (hrest : rest < 10 ^ (k + 1))
    (e : Int) :
    IsClosest ((n * 10 ^ (k + 1) + rest) * 10 ^ e.toNat) (10 ^ (-e).toNat)
      (nearestRank ((10 * n + 1) * 10 ^ (e + k).toNat) (10 ^ (-(e + k)).toNat)) := by
  have hden : 0 < 10 ^ (-e).toNat := by positivity
  have hten : 0 < 10 ^ e.toNat := by positivity
  have hpow : 0 < 10 ^ k := by positivity
  rw [nearestRank_congr (by positivity) hden (shift_ten_pow (10 * n + 1) k e)]
  have hlow : n * 10 ^ (k + 1) < (10 * n + 1) * 10 ^ k := by
    rw [pow_succ', ← Nat.mul_assoc, Nat.mul_comm n 10]
    exact Nat.mul_lt_mul_of_pos_right (Nat.lt_succ_self _) hpow
  have hhigh : (10 * n + 1) * 10 ^ k < (n + 1) * 10 ^ (k + 1) := by
    rw [pow_succ', ← Nat.mul_assoc]
    exact Nat.mul_lt_mul_of_pos_right (by omega) hpow
  have hhigh' : n * 10 ^ (k + 1) + rest < (n + 1) * 10 ^ (k + 1) := by
    rw [Nat.succ_mul]
    omega
  refine (isNearest_nearestRank _ hden).isClosest_of_between hden (fun rank hrank h => ?_)
    (Nat.mul_lt_mul_of_pos_right hlow hten) (Nat.mul_lt_mul_of_pos_right hhigh hten)
    (Nat.mul_le_mul_right _ (Nat.le_add_right _ _)) (Nat.mul_lt_mul_of_pos_right hhigh' hten)
  rw [Nat.mul_assoc n, ← pow_add] at h
  rw [Nat.mul_assoc (n + 1), ← pow_add]
  exact le_midpoint_of_lt hn hrank h

end Binary64

end FormatExpr
