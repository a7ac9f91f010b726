import FormatExpr.Proofs.NumberText
import FormatExpr.Proofs.RoundingOrder

/-!
# The shortest decimal

The decimals that read back as a number are those from a least to a greatest one
(`readsBack_between`), and the number lies among them. So with a given count of places, if any
decimal reads back then one of the two neighbours of the number does, and the shortest decimal has
the least count of places for which one does (`shortest_isLeast`).

A number with a fraction is not what an integer reads back as. From this it follows that the least
count of places gives the least count of digits too: no decimal that reads back, whatever its
places, has fewer digits than the shortest one (`length_digits_shortest_le`).
-/

namespace FormatExpr

namespace Binary64

open Text

variable {rank places n : Nat}

/-! ### Decimals that read back -/

lemma readsBack_iff : readsBack rank places n = true ↔ nearestRank n (powTen places) = rank :=
  beq_iff_eq

/-- What lies between two decimals that read back does so too. -/
lemma readsBack_between {a b c : Nat} (hac : a ≤ c) (hcb : c ≤ b)
    (ha : readsBack rank places a = true) (hb : readsBack rank places b = true) :
    readsBack rank places c = true := by
  rw [readsBack_iff] at *
  have hlow := nearestRank_mono (powTen_pos places) hac
  have hhigh := nearestRank_mono (powTen_pos places) hcb
  omega

/-- More places with zeros in them make no difference. -/
lemma readsBack_mul_ten_pow (k : Nat) :
    readsBack rank (places + k) (n * 10 ^ k) = readsBack rank places n := by
  have hten : 0 < 10 ^ k := by positivity
  have hpowTen : powTen (places + k) = powTen places * 10 ^ k := pow_add 10 places k
  rw [readsBack, readsBack, hpowTen, nearestRank_mul n (powTen_pos places) hten]

/-- If a decimal reads back then so does a neighbour of the number with as many places. -/
lemma decimalAt?_ne_none (hrank : rank < infinityRank) (h : readsBack rank places n = true) :
    decimalAt? rank places ≠ none := by
  have hten := powTen_pos places
  have hden : 0 < powTen places * unitsPerOne := Nat.mul_pos hten unitsPerOne_pos
  have hreads : ∀ m, readsBack rank places m = true ↔
      nearestRank (m * unitsPerOne) (powTen places * unitsPerOne) = rank := by
    intro m
    rw [readsBack_iff, nearestRank_mul m hten unitsPerOne_pos]
  -- over this denominator the number is a quotient, and it lies between its neighbours
  have hnumber : nearestRank (unitsOfRank rank * powTen places) (powTen places * unitsPerOne)
      = rank :=
    nearestRank_of_eq hden hrank (Nat.mul_assoc _ _ _)
  have hbelow := Nat.div_mul_le_self (unitsOfRank rank * powTen places) unitsPerOne
  have habove := Nat.lt_div_mul_add unitsPerOne_pos (a := unitsOfRank rank * powTen places)
  rw [decimalAt?]
  generalize unitsOfRank rank * powTen places = scaled at *
  have hneighbour : readsBack rank places (scaled / unitsPerOne) = true ∨
      readsBack rank places (scaled / unitsPerOne + 1) = true := by
    rw [hreads, hreads]
    rw [hreads] at h
    rcases Nat.lt_or_ge (scaled / unitsPerOne) n with hlt | hge
    · right
      rw [← Nat.succ_mul] at habove
      have hlow := nearestRank_mono hden habove.le
      have hhigh := nearestRank_mono hden (Nat.mul_le_mul_right unitsPerOne hlt)
      exact le_antisymm (h ▸ hhigh) (hnumber ▸ hlow)
    · left
      have hlow := nearestRank_mono hden (Nat.mul_le_mul_right unitsPerOne hge)
      have hhigh := nearestRank_mono hden hbelow
      exact le_antisymm (hnumber ▸ hhigh) (h ▸ hlow)
  rcases hneighbour with hfits | hfits <;> simp only [hfits, Bool.true_and, Bool.and_true] <;>
    split_ifs <;> simp

/-! ### Integers -/

lemma divNearestEven_bounds (num den : Nat) :
    num / den ≤ divNearestEven num den ∧ divNearestEven num den ≤ num / den + 1 := by
  rw [divNearestEven]
  split_ifs <;> simp

/-- An integer is rounded to an integer, unless it is rounded to infinity: the step is a multiple of
one, or else it divides the integer. -/
lemma unitsPerOne_dvd_unitsOfRank_nearestRank (hfinite : nearestRank n 1 < infinityRank) :
    unitsPerOne ∣ unitsOfRank (nearestRank n 1) := by
  have hround : nearestRank n 1 = min infinityRank _ := rfl
  have hbounds := steps_bounds (n * unitsPerOne)
  rw [Nat.div_one, Nat.one_shiftLeft] at hround
  generalize (n * unitsPerOne).log2 - 52 = e at hbounds hround
  have hsteps := divNearestEven_bounds (n * unitsPerOne) (2 ^ e)
  have hrank : nearestRank n 1
      = e * ranksPerExponent + divNearestEven (n * unitsPerOne) (2 ^ e) := by omega
  rw [hrank, unitsOfRank_eq (by omega) (hbounds.2.imp_right (by omega))]
  rcases Nat.le_total e 1074 with hle | hge
  · have hexact : n * unitsPerOne = n * 2 ^ (1074 - e) * 2 ^ e := by
      rw [Nat.mul_assoc, ← pow_add, Nat.sub_add_cancel hle, unitsPerOne_eq]
    rw [hexact, divNearestEven_mul _ (Nat.two_pow_pos e), ← hexact]
    exact Nat.dvd_mul_left _ _
  · rw [unitsPerOne_eq]
    exact Dvd.dvd.mul_left (pow_dvd_pow 2 hge) _

/-! ### The least count of places -/

/-- A decimal with a step below half a unit reads back. -/
lemma readsBack_of_le (hrank : rank < infinityRank) (hplaces : 2 * unitsPerOne ≤ powTen places) :
    readsBack rank places (unitsOfRank rank * powTen places / unitsPerOne) = true := by
  have hden := powTen_pos places
  rw [readsBack, beq_iff_eq]
  refine (isNearest_nearestRank _ hden).unique hden ⟨hrank.le, fun rank' _ hne => .inl ?_⟩
  have hgap : (unitsOfRank rank' + 1) * powTen places ≤ unitsOfRank rank * powTen places ∨
      (unitsOfRank rank + 1) * powTen places ≤ unitsOfRank rank' * powTen places := by
    rcases Nat.lt_or_gt_of_ne hne with hlt | hgt
    · exact .inl (Nat.mul_le_mul_right _ (unitsOfRank_strictMono hlt))
    · exact .inr (Nat.mul_le_mul_right _ (unitsOfRank_strictMono hgt))
  rw [Nat.succ_mul, Nat.succ_mul] at hgap
  have hdiv := Nat.div_add_mod (unitsOfRank rank * powTen places) unitsPerOne
  have hmod := Nat.mod_lt (unitsOfRank rank * powTen places) unitsPerOne_pos
  rw [Nat.mul_comm] at hdiv
  simp only [distance, Nat.dist]
  omega

/-- The shortest decimal has the least count of places with which any decimal reads back. -/
lemma shortest_isLeast (hrank : rank < infinityRank) :
    0 < (shortest rank).1 ∧ (shortest rank).1 ≤ 360 ∧
      decimalAt? rank (shortest rank).1 = some (shortest rank).2 ∧
      ∀ places, 0 < places → places < (shortest rank).1 → decimalAt? rank places = none := by
  have hten : 2 * unitsPerOne ≤ powTen 360 := by
    rw [unitsPerOne_eq, powTen_eq, ← pow_succ']
    exact two_pow_le_ten_pow (by omega)
  have hsome := decimalAt?_ne_none hrank (readsBack_of_le hrank hten)
  rw [shortest]
  cases hfound : (List.range' 1 1073).findSome? fun places =>
      (decimalAt? rank places).map fun n => (places, n) with
  | none =>
    rw [List.findSome?_eq_none_iff] at hfound
    have := hfound 360 (by rw [List.mem_range'_1]; omega)
    exact absurd (Option.map_eq_none_iff.1 this) hsome
  | some found =>
    obtain ⟨before, places, after, hrange, hat, hbefore⟩ := List.findSome?_eq_some_iff.1 hfound
    obtain ⟨n, hn, rfl⟩ := Option.map_eq_some_iff.1 hat
    obtain ⟨k, -, rfl, hafter⟩ := List.range'_eq_append_iff.1 hrange
    obtain ⟨rfl, -, -⟩ := List.range'_eq_cons_iff.1 hafter.symm
    rw [Nat.mul_one, Option.getD_some]
    rw [Nat.mul_one] at hn
    have hleast : ∀ i, 0 < i → i < 1 + k → decimalAt? rank i = none := fun i hpos hlt =>
      Option.map_eq_none_iff.1 (hbefore i (List.mem_range'_1.2 ⟨hpos, hlt⟩))
    refine ⟨Nat.add_pos_left Nat.one_pos k, ?_, hn, hleast⟩
    by_contra hlt
    exact hsome (hleast 360 (by omega) (Nat.not_le.1 hlt))

/-! ### The least count of digits -/

/-- A number with a fraction has a decimal that reads back and no decimal with fewer places. -/
lemma shortest_places_le (hrank : rank < infinityRank) (hfraction : ¬unitsPerOne ∣ unitsOfRank rank)
    (h : readsBack rank places n = true) : (shortest rank).1 ≤ places := by
  obtain ⟨-, -, -, hleast⟩ := shortest_isLeast hrank
  by_contra hlt
  rw [Nat.not_le] at hlt
  rcases Nat.eq_zero_or_pos places with rfl | hpos
  · rw [readsBack_iff] at h
    change nearestRank n 1 = rank at h
    rw [← h] at hrank hfraction
    exact hfraction (unitsPerOne_dvd_unitsOfRank_nearestRank hrank)
  · exact decimalAt?_ne_none hrank h (hleast places hpos hlt)

/-- Of all decimals that read back as a number with a fraction, none has fewer digits than the
shortest one. Otherwise a power of ten between the two would read back with fewer places. -/
theorem length_digits_shortest_le (hrank : rank < infinityRank)
    (hfraction : ¬unitsPerOne ∣ unitsOfRank rank) (h : readsBack rank places n = true) :
    (digits (shortest rank).2).length ≤ (digits n).length := by
  have hleast := fun {i m : Nat} => @shortest_places_le rank i m hrank hfraction
  obtain ⟨hpos, -, hat, -⟩ := shortest_isLeast hrank
  have hshortest := readsBack_iff.2 (readsBack_of_decimalAt? hat)
  obtain ⟨k, rfl⟩ := Nat.exists_eq_add_of_le (hleast h)
  generalize (shortest rank).1 = p at *
  generalize (shortest rank).2 = m at *
  have hlength := length_digits_pos n
  have hten : ∀ i, (digits i).length ≤ (digits n).length ↔ i < 10 ^ (digits n).length :=
    fun i => Nat.length_toDigits_le_iff (by decide) hlength
  by_contra hlonger
  have hbelow := (hten n).1 le_rfl
  have habove := Nat.not_lt.1 ((hten m).not.1 hlonger)
  have hpower : readsBack rank (p + k) (10 ^ (digits n).length * 10 ^ k) = true := by
    rw [← readsBack_mul_ten_pow k] at hshortest
    exact readsBack_between (hbelow.le.trans (Nat.le_mul_of_pos_right _ (by positivity)))
      (Nat.mul_le_mul_right _ habove) h hshortest
  rw [readsBack_mul_ten_pow] at hpower
  obtain ⟨p, rfl⟩ := Nat.exists_eq_succ_of_ne_zero hpos.ne'
  obtain ⟨l, hl⟩ := Nat.exists_eq_succ_of_ne_zero hlength.ne'
  rw [hl, Nat.pow_succ, ← pow_one 10, Nat.succ_eq_add_one, readsBack_mul_ten_pow] at hpower
  exact absurd (hleast hpower) (by omega)

end Binary64

end FormatExpr
