import FormatExpr.Proofs.Nearest

/-!
# Rounding and order

Rounding keeps the order of quotients (`nearestRank_mono`): of two ranks that are nearest to two
quotients the smaller one cannot belong to the larger quotient. It gives infinity exactly from the
midpoint on between the greatest finite magnitude and the one that would come next
(`nearestRank_eq_infinityRank_iff`).

`numLE` is the order of numbers by their values, so that rounding integers keeps their order as
well (`ofInt_numLE`).
-/

namespace FormatExpr

namespace Binary64

/-! ### Larger quotients -/

/-- A rank that is nearest to a quotient is no larger than one that is nearest to a larger
quotient. -/
lemma IsNearest.mono {num num' den rank rank' : Nat} (hden : 0 < den) (hle : num ≤ num')
    (h : IsNearest num den rank) (h' : IsNearest num' den rank') : rank ≤ rank' := by
  by_contra hlt
  rw [Nat.not_le] at hlt
  have hunits := unitsOfRank_mul_lt hden hlt
  have hscaled : num * unitsPerOne ≤ num' * unitsPerOne := Nat.mul_le_mul_right _ hle
  have hfrom := h.nearest rank' h'.rank_le hlt.ne
  have hto := h'.nearest rank h.rank_le hlt.ne'
  -- the midpoint of the two magnitudes lies between the quotients, so all three are equal
  have hequal : num * unitsPerOne = num' * unitsPerOne := by
    simp only [distance, Nat.dist] at hfrom hto
    omega
  obtain rfl := Nat.eq_of_mul_eq_mul_right unitsPerOne_pos hequal
  exact hlt.ne (h'.unique hden h)

theorem nearestRank_mono {num num' den : Nat} (hden : 0 < den) (h : num ≤ num') :
    nearestRank num den ≤ nearestRank num' den :=
  (isNearest_nearestRank num hden).mono hden h (isNearest_nearestRank num' hden)

/-! ### Closest magnitudes -/

/-- No magnitude up to that of infinity is nearer to the quotient `num / den` than that of the rank,
but another one may be as near. -/
structure IsClosest (num den rank : Nat) : Prop where
  rank_le : rank ≤ infinityRank
  closest : ∀ rank' ≤ infinityRank, distance num den rank ≤ distance num den rank'

lemma IsNearest.isClosest {num den rank : Nat} (h : IsNearest num den rank) :
    IsClosest num den rank := by
  refine ⟨h.rank_le, fun rank' hrank' => ?_⟩
  rcases eq_or_ne rank' rank with rfl | hne
  · exact le_rfl
  · rcases h.nearest rank' hrank' hne with hlt | ⟨heq, -⟩
    · exact hlt.le
    · exact heq.le

/-! ### Overflow -/

lemma unitsOfRank_infinityRank : unitsOfRank infinityRank = 2 ^ 1024 * unitsPerOne := by
  have hk : ranksPerExponent ≤ 2 * ranksPerExponent := by omega
  have hrank : 2046 * ranksPerExponent + ranksPerExponent = infinityRank := by decide
  rw [← hrank, unitsOfRank_eq hk (.inr le_rfl), ranksPerExponent_eq, unitsPerOne_eq, ← pow_add,
    ← pow_add]

/-- From the greatest finite magnitude to two to the power 1024 it is one step. -/
lemma unitsOfRank_greatest :
    unitsOfRank infinityRank = unitsOfRank (infinityRank - 1) + 2 ^ (970 + 1) * unitsPerOne := by
  have hrank : infinityRank - 1 + 1 = infinityRank := by decide
  have hstep : (infinityRank - 1) / ranksPerExponent - 1 = 970 + 1 + 1074 := by decide
  rw [← hrank, unitsOfRank_succ, hstep, pow_add, ← unitsPerOne_eq, Nat.add_sub_cancel]

/-- If infinity is closest then the quotient is not below the midpoint between the greatest finite
magnitude and two to the power 1024. -/
lemma IsClosest.le_of_infinityRank {num den : Nat} (hden : 0 < den)
    (h : IsClosest num den infinityRank) : (2 ^ 1024 - 2 ^ 970) * den ≤ num := by
  have hside := h.closest (infinityRank - 1) (Nat.sub_le _ _)
  have htop := congrArg (· * den) unitsOfRank_infinityRank
  have hstep := congrArg (· * den) unitsOfRank_greatest
  have hhalf : 0 < 2 ^ 970 * unitsPerOne * den :=
    Nat.mul_pos (Nat.mul_pos (by positivity) unitsPerOne_pos) hden
  rw [pow_succ' 2 970] at hstep
  simp only [Nat.add_mul, Nat.mul_assoc 2] at htop hstep
  -- the quotient is not nearer to the lower end of the last step than to its upper end
  have hmid : 2 ^ 1024 * unitsPerOne * den ≤ num * unitsPerOne + 2 ^ 970 * unitsPerOne * den := by
    simp only [distance, Nat.dist] at hside
    generalize 2 ^ 970 * unitsPerOne * den = half at *
    generalize 2 ^ 1024 * unitsPerOne * den = top at *
    omega
  rw [Nat.sub_mul, Nat.sub_le_iff_le_add]
  apply Nat.le_of_mul_le_mul_right _ unitsPerOne_pos
  rwa [Nat.add_mul, Nat.mul_right_comm, Nat.mul_right_comm _ den]

/-- A quotient is rounded to infinity exactly from that midpoint on. -/
theorem nearestRank_eq_infinityRank_iff {num den : Nat} (hden : 0 < den) :
    nearestRank num den = infinityRank ↔ (2 ^ 1024 - 2 ^ 970) * den ≤ num := by
  constructor
  · intro h
    have hclosest := (isNearest_nearestRank num hden).isClosest
    rw [h] at hclosest
    exact hclosest.le_of_infinityRank hden
  · intro h
    have hmid : nearestRank (2 ^ 1024 - 2 ^ 970) 1 = infinityRank := by decide +kernel
    have hscaled := nearestRank_mul (2 ^ 1024 - 2 ^ 970) Nat.one_pos hden
    rw [Nat.one_mul, hmid] at hscaled
    apply le_antisymm (isNearest_nearestRank num hden).rank_le
    rw [← hscaled]
    exact nearestRank_mono hden h

/-- Reading a decimal with any power of ten is rounding the quotient that it denotes. -/
theorem ofDecimal_eq (negative : Bool) (n : Nat) (e : Int) :
    ofDecimal negative n e = nearest negative (n * 10 ^ e.toNat) (10 ^ (-e).toNat) := by
  obtain ⟨k, rfl | rfl⟩ := e.eq_nat_or_neg
  · change ofDecimal negative n (.ofNat k) = _
    rw [Int.toNat_natCast, Int.toNat_neg_natCast, pow_zero, ofDecimal]
    split_ifs with hn hk
    · rw [hn, Nat.zero_mul, ← ofDecimal_zero]
      rfl
    · have hbound : 2 ^ 1024 - 2 ^ 970 ≤ 10 ^ 310 := by decide +kernel
      have hpow : ∀ i ≤ k, 10 ^ i ≤ n * 10 ^ k := fun i hi =>
        (Nat.pow_le_pow_right (by omega) hi).trans
          (Nat.le_mul_of_pos_left _ (Nat.pos_of_ne_zero hn))
      have hlarge : (2 ^ 1024 - 2 ^ 970) * 1 ≤ n * 10 ^ k := by
        rw [Nat.mul_one]
        exact hbound.trans (hpow 310 hk)
      rw [nearest, infinity]
      congr 1
      exact ((nearestRank_eq_infinityRank_iff Nat.one_pos).2 hlarge).symm
    · rfl
  · rw [ofDecimal_neg, neg_neg, Int.toNat_natCast, Int.toNat_neg_natCast, pow_zero, Nat.mul_one]
    rfl

/-! ### Order of numbers -/

/-- The value of a number in units. Infinity counts as the magnitude after the greatest finite
one. -/
def signedUnits (x : Binary64) : Int :=
  if x.negative then -x.units else x.units

/-- The order of the arithmetic standard: NaN is not in it, and the two zeros are equal. -/
def numLE (x y : Binary64) : Prop :=
  x.isNaN = false ∧ y.isNaN = false ∧ x.signedUnits ≤ y.signedUnits

lemma isNaN_nearest (negative : Bool) (num den : Nat) :
    (nearest negative num den).isNaN = false :=
  decide_eq_false (Nat.not_lt.2 (Nat.min_le_left _ _))

/-- Rounding keeps the order of integers. -/
theorem ofInt_numLE {i j : Int} (h : i ≤ j) : (ofInt i).numLE (ofInt j) := by
  refine ⟨isNaN_nearest _ _ _, isNaN_nearest _ _ _, ?_⟩
  have hmono : ∀ {m n : Nat}, m ≤ n →
      unitsOfRank (nearestRank m 1) ≤ unitsOfRank (nearestRank n 1) :=
    fun hle => unitsOfRank_strictMono.monotone (nearestRank_mono Nat.one_pos hle)
  simp only [signedUnits, ofInt, nearest, units, decide_eq_true_eq]
  split_ifs with hi hj hj
  · have := hmono (show j.natAbs ≤ i.natAbs by omega)
    omega
  · omega
  · omega
  · have := hmono (show i.natAbs ≤ j.natAbs by omega)
    omega

end Binary64

end FormatExpr
