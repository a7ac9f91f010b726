import FormatExpr.Proofs.Rounding

/-!
# The nearest number

The magnitudes increase with their ranks, and from one rank to the next by the step of its binary
exponent (`unitsOfRank_succ`). So a quotient lies between the magnitudes of two neighbouring ranks,
and rounding takes the nearer one, or the even one of two equally near ones.

`IsNearest` says this without any rounding: no other rank is nearer, and if another one is as near
then this one is even. Infinity counts as the magnitude that would come after the greatest finite
one. There is at most one such rank (`IsNearest.unique`), and rounding finds it
(`isNearest_nearestRank`).
-/

namespace FormatExpr

namespace Binary64

/-! ### Neighbouring magnitudes -/

/-- The rank of `m` steps of two to the power `e` has `m` such steps as its magnitude. -/
lemma unitsOfRank_eq {e m : Nat} (hm : m ≤ 2 * ranksPerExponent)
    (he : e = 0 ∨ ranksPerExponent ≤ m) :
    unitsOfRank (e * ranksPerExponent + m) = m * 2 ^ e := by
  have hpos : 0 < ranksPerExponent := by decide
  rw [unitsOfRank]
  generalize ranksPerExponent = k at *
  rcases Nat.lt_or_ge m k with hlt | hge
  · obtain rfl : e = 0 := by omega
    rw [Nat.zero_mul, Nat.zero_add, if_pos hlt, pow_zero, Nat.mul_one]
  · have hge' : ¬e * k + m < k := by omega
    rw [if_neg hge', Nat.shiftLeft_eq]
    rcases Nat.lt_or_ge m (2 * k) with hlt | hge
    · have hdiv : (e * k + m) / k = e + 1 := by
        rw [Nat.div_eq_iff hpos, Nat.add_mul]
        omega
      have hmod : (e * k + m) % k = m - k := by
        rw [Nat.mul_comm, Nat.mul_add_mod, Nat.mod_eq_sub_mod hge, Nat.mod_eq_of_lt (by omega)]
      rw [hdiv, hmod, Nat.add_sub_cancel, Nat.add_sub_cancel' (by omega)]
    · -- one step further the next binary exponent begins
      obtain rfl : m = 2 * k := by omega
      rw [← Nat.add_mul, Nat.mul_mod_left, Nat.mul_div_cancel _ hpos, Nat.add_zero,
        show e + 2 - 1 = e + 1 by omega, pow_succ]
      ring

/-- A rank is made up of its binary exponent and a count of steps. -/
lemma exists_steps (rank : Nat) :
    ∃ m, rank = (rank / ranksPerExponent - 1) * ranksPerExponent + m ∧ m < 2 * ranksPerExponent ∧
      (rank / ranksPerExponent - 1 = 0 ∨ ranksPerExponent ≤ m) := by
  have hpos : 0 < ranksPerExponent := by decide
  have hdiv := Nat.div_add_mod rank ranksPerExponent
  have hmod := Nat.mod_lt rank hpos
  generalize ranksPerExponent = k at *
  cases hq : rank / k with
  | zero => exact ⟨rank, by simp, by rw [hq] at hdiv; omega, .inl rfl⟩
  | succ e =>
    refine ⟨k + rank % k, ?_, by omega, .inr (by omega)⟩
    rw [hq] at hdiv
    rw [Nat.add_sub_cancel, ← Nat.add_assoc, ← Nat.succ_mul, Nat.mul_comm]
    exact hdiv.symm

/-- From one rank to the next the magnitude grows by the step of its binary exponent. -/
theorem unitsOfRank_succ (rank : Nat) :
    unitsOfRank (rank + 1) = unitsOfRank rank + 2 ^ (rank / ranksPerExponent - 1) := by
  obtain ⟨m, hrank, hm, he⟩ := exists_steps rank
  have hnext : unitsOfRank (rank + 1) = (m + 1) * 2 ^ (rank / ranksPerExponent - 1) := by
    rw [← unitsOfRank_eq (by omega) (he.imp_right (by omega)), ← Nat.add_assoc, ← hrank]
  have hthis := unitsOfRank_eq hm.le he
  rw [← hrank] at hthis
  rw [hnext, hthis, Nat.succ_mul]

lemma unitsOfRank_strictMono : StrictMono unitsOfRank := by
  apply strictMono_nat_of_lt_succ
  intro rank
  rw [unitsOfRank_succ]
  exact Nat.lt_add_of_pos_right (Nat.two_pow_pos _)

lemma unitsOfRank_mul_lt {den a b : Nat} (hden : 0 < den) (h : a < b) :
    unitsOfRank a * den < unitsOfRank b * den :=
  Nat.mul_lt_mul_of_pos_right (unitsOfRank_strictMono h) hden

/-! ### The nearest rank -/

/-- How far the quotient `num / den` is from the magnitude of a rank, in units and times `den`. -/
def distance (num den rank : Nat) : Nat :=
  Nat.dist (num * unitsPerOne) (unitsOfRank rank * den)

/-- The magnitude of the rank is nearest to the quotient `num / den` among all ranks up to that of
infinity, and of two equally near ones it is the even one. -/
structure IsNearest (num den rank : Nat) : Prop where
  rank_le : rank ≤ infinityRank
  nearest : ∀ rank' ≤ infinityRank, rank' ≠ rank →
    distance num den rank < distance num den rank' ∨
      distance num den rank = distance num den rank' ∧ rank % 2 = 0

/-- The count of whole steps in a quotient has 53 binary digits, or fewer at the least exponent. -/
lemma steps_bounds (q : Nat) :
    q / 2 ^ (q.log2 - 52) < 2 * ranksPerExponent ∧
      (q.log2 - 52 = 0 ∨ ranksPerExponent ≤ q / 2 ^ (q.log2 - 52)) := by
  rw [ranksPerExponent_eq, ← pow_succ']
  have hlt : q < 2 ^ (q.log2 + 1) := Nat.lt_log2_self
  constructor
  · rw [Nat.div_lt_iff_lt_mul (Nat.two_pow_pos _), ← pow_add]
    exact hlt.trans_le (Nat.pow_le_pow_right (by omega) (by omega))
  · by_cases h : q.log2 - 52 = 0
    · exact .inl h
    · right
      have hq : q ≠ 0 := by
        rintro rfl
        exact h (by simp)
      rw [Nat.le_div_iff_mul_le (Nat.two_pow_pos _), ← pow_add]
      exact (Nat.pow_le_pow_right (by omega) (by omega)).trans (Nat.log2_self_le hq)

/-- The quotient lies between the magnitudes of `rank` and the next rank, and rounding gives one of
the two, unless it gives infinity. -/
lemma exists_neighbours (num : Nat) {den : Nat} (hden : 0 < den) :
    ∃ rank step : Nat, 0 < step ∧ unitsOfRank (rank + 1) * den = unitsOfRank rank * den + step ∧
      unitsOfRank rank * den ≤ num * unitsPerOne ∧
      num * unitsPerOne < unitsOfRank rank * den + step ∧
      nearestRank num den = min infinityRank
        (if 2 * (num * unitsPerOne - unitsOfRank rank * den) < step then rank
          else if step < 2 * (num * unitsPerOne - unitsOfRank rank * den) then rank + 1
          else if rank % 2 = 0 then rank else rank + 1) := by
  rw [nearestRank, divNearestEven]
  generalize num * unitsPerOne = scaled
  have hbounds := steps_bounds (scaled / den)
  rw [Nat.div_div_eq_div_mul] at hbounds
  generalize Nat.log2 (scaled / den) - 52 = e at hbounds ⊢
  rw [Nat.shiftLeft_eq]
  have hstep : 0 < den * 2 ^ e := by positivity
  have hdiv := Nat.div_add_mod scaled (den * 2 ^ e)
  have hmod := Nat.mod_lt scaled hstep
  generalize scaled / (den * 2 ^ e) = m at hbounds hdiv ⊢
  generalize scaled % (den * 2 ^ e) = r at hdiv hmod ⊢
  have hthis : unitsOfRank (e * ranksPerExponent + m) * den = den * 2 ^ e * m := by
    rw [unitsOfRank_eq hbounds.1.le hbounds.2]
    ring
  have hnext : unitsOfRank (e * ranksPerExponent + m + 1) * den
      = den * 2 ^ e * m + den * 2 ^ e := by
    rw [Nat.add_assoc, unitsOfRank_eq (by omega) (hbounds.2.imp_right (by omega))]
    ring
  have hparity : (e * ranksPerExponent + m) % 2 = m % 2 := by
    rw [ranksPerExponent_eq]
    omega
  refine ⟨e * ranksPerExponent + m, den * 2 ^ e, hstep, ?_, ?_, ?_, ?_⟩
  · rw [hnext, hthis]
  · omega
  · omega
  · have hr : scaled - unitsOfRank (e * ranksPerExponent + m) * den = r := by omega
    rw [hr, hparity]
    change Nat.min infinityRank _ = Nat.min infinityRank _
    split_ifs <;> simp [Nat.add_assoc]

/-- Rounding finds the nearest rank. -/
theorem isNearest_nearestRank (num : Nat) {den : Nat} (hden : 0 < den) :
    IsNearest num den (nearestRank num den) := by
  obtain ⟨low, step, hstep, hnext, hle, hlt, hround⟩ := exists_neighbours num hden
  refine ⟨by rw [hround]; exact min_le_left _ _, ?_⟩
  intro rank hrank hne
  rw [hround] at hne ⊢
  simp only [distance, Nat.dist]
  rcases Nat.lt_or_ge low infinityRank with hfinite | hinfinite
  · -- `rank` is one of the two neighbours, or it lies beyond one of them
    have hside : rank < low ∧ unitsOfRank rank * den < unitsOfRank low * den ∨ rank = low ∨
        rank = low + 1 ∨
        low + 1 < rank ∧ unitsOfRank (low + 1) * den < unitsOfRank rank * den := by
      rcases Nat.lt_trichotomy rank low with hlt | heq | hgt
      · exact .inl ⟨hlt, unitsOfRank_mul_lt hden hlt⟩
      · exact .inr (.inl heq)
      · rcases Nat.eq_or_lt_of_le hgt with heq | hgt
        · exact .inr (.inr (.inl heq.symm))
        · exact .inr (.inr (.inr ⟨hgt, unitsOfRank_mul_lt hden hgt⟩))
    rw [min_eq_right (by split_ifs <;> omega)] at hne ⊢
    rcases hside with ⟨-, hside⟩ | rfl | rfl | ⟨-, hside⟩ <;> split_ifs at hne ⊢ <;> omega
  · -- even the lower neighbour is beyond every finite magnitude
    have hmin : ∀ {r}, low ≤ r → min infinityRank r = infinityRank := by
      intro r hr
      exact min_eq_left (hinfinite.trans hr)
    have hinf : unitsOfRank infinityRank * den ≤ unitsOfRank low * den :=
      Nat.mul_le_mul_right den (unitsOfRank_strictMono.monotone hinfinite)
    rw [hmin (by split_ifs <;> omega)] at hne ⊢
    have hlt := unitsOfRank_mul_lt hden (lt_of_le_of_ne hrank hne)
    omega

/-- Only one rank is nearest: between two equally near even ones there would be a nearer one. -/
theorem IsNearest.unique {num den rank rank' : Nat} (hden : 0 < den) (h : IsNearest num den rank)
    (h' : IsNearest num den rank') : rank = rank' := by
  have hlt : ∀ {a b}, IsNearest num den a → IsNearest num den b → ¬a < b := by
    intro a b ha hb hab
    have hequal : distance num den a = distance num den b ∧ a % 2 = 0 ∧ b % 2 = 0 := by
      have hfrom := ha.nearest b hb.rank_le hab.ne'
      have hto := hb.nearest a ha.rank_le hab.ne
      omega
    have hnext : a + 1 < b := by omega
    have hlow := unitsOfRank_mul_lt hden (Nat.lt_add_one a)
    have hhigh := unitsOfRank_mul_lt hden hnext
    have hbetween := ha.nearest (a + 1) (by have := hb.rank_le; omega) (by omega)
    simp only [distance, Nat.dist] at hequal hbetween
    generalize num * unitsPerOne = scaled at hequal hbetween
    omega
  rcases Nat.lt_trichotomy rank rank' with hgt | heq | hgt
  · exact absurd hgt (hlt h h')
  · exact heq
  · exact absurd hgt (hlt h' h)

lemma distance_mul (num den c rank : Nat) :
    distance (num * c) (den * c) rank = distance num den rank * c := by
  rw [distance, distance, ← Nat.dist_mul_right, Nat.mul_right_comm, Nat.mul_assoc _ den]

/-- A quotient may be reduced before it is rounded. -/
theorem nearestRank_mul (num : Nat) {den c : Nat} (hden : 0 < den) (hc : 0 < c) :
    nearestRank (num * c) (den * c) = nearestRank num den := by
  have hpos : 0 < den * c := Nat.mul_pos hden hc
  have h := isNearest_nearestRank num hden
  apply (isNearest_nearestRank (num * c) hpos).unique hpos
  refine ⟨h.rank_le, ?_⟩
  intro rank hrank hne
  rw [distance_mul, distance_mul]
  rcases h.nearest rank hrank hne with hlt | ⟨heq, heven⟩
  · exact .inl (Nat.mul_lt_mul_of_pos_right hlt hc)
  · exact .inr ⟨by rw [heq], heven⟩

/-! ### The nearest number -/

/-- The number has the given sign, and its magnitude is nearest to the quotient `num / den`. -/
def RoundedFrom (x : Binary64) (negative : Bool) (num den : Nat) : Prop :=
  x.negative = negative ∧ IsNearest num den x.rank

lemma roundedFrom_nearest (negative : Bool) (num : Nat) {den : Nat} (hden : 0 < den) :
    (nearest negative num den).RoundedFrom negative num den :=
  ⟨rfl, isNearest_nearestRank num hden⟩

lemma roundedFrom_iff {x : Binary64} {num den : Nat} (hden : 0 < den) :
    x.RoundedFrom x.negative num den ↔ nearestRank num den = x.rank := by
  constructor
  · intro h
    exact (isNearest_nearestRank num hden).unique hden h.2
  · intro h
    exact ⟨rfl, h ▸ isNearest_nearestRank num hden⟩

/-- Only one number is rounded from a quotient. -/
lemma RoundedFrom.unique {x y : Binary64} {negative : Bool} {num den : Nat}
    (h : x.RoundedFrom negative num den) (hden : 0 < den) (h' : y.RoundedFrom negative num den) :
    x = y := by
  obtain ⟨negative', rank, hlt⟩ := x
  obtain ⟨negative'', rank', hlt'⟩ := y
  obtain ⟨rfl, hrank⟩ := h
  obtain ⟨rfl, hrank'⟩ := h'
  obtain rfl : rank = rank' := hrank.unique hden hrank'
  rfl

end Binary64

end FormatExpr
