import FormatExpr.Proofs.Layout
import FormatExpr.Proofs.RoundingOrder

/-!
# Integer tokens

A sign and digits denote an integer of any size. An argument that is such a token is read as a
number that keeps the integer as well as a number can (`Number.Keeps`): as it is if it fits into 64
bits, and rounded otherwise. Seen as a floating point number it is the rounded integer in both
cases. So these numbers are in the order of the integers, and a point with a zero behind the token
makes no difference to them (`Argument.literals_integer`).
-/

namespace FormatExpr

/-! ### Signed numbers -/

namespace Sign

lemma natAbs_apply (s : Sign) (n : Nat) : (s.apply n).natAbs = n := by
  cases s <;> simp [apply, isMinus]

lemma apply_zero (s : Sign) : s.apply 0 = 0 := by
  cases s <;> simp [apply, isMinus]

/-- Only zero may have a minus and not be negative. -/
lemma decide_apply_lt_zero (s : Sign) {n : Nat} (hn : n ≠ 0) :
    decide (s.apply n < 0) = s.isMinus := by
  cases s with
  | minus =>
    rw [apply, isMinus, if_pos rfl, decide_eq_true_eq]
    omega
  | _ => simp [apply, isMinus]

end Sign

namespace Binary64

/-- A signed number is rounded like its magnitude, unless it is zero with a minus. -/
lemma ofInt_apply (s : Sign) {n : Nat} (hn : n ≠ 0) :
    ofInt (s.apply n) = nearest s.isMinus n 1 := by
  rw [ofInt, s.natAbs_apply, s.decide_apply_lt_zero hn]

lemma ofInt_apply_numEq (s : Sign) (n : Nat) :
    (ofInt (s.apply n)).numEq (nearest s.isMinus n 1) = true := by
  by_cases hn : n = 0
  · have hzero : nearestRank 0 1 = 0 := nearestRank_eq_zero (by simp)
    simp [numEq, isNaN, nearest, ofInt, hn, hzero, s.apply_zero]
  · simp [numEq, ofInt_apply s hn, isNaN_nearest]

lemma roundedFrom_ofInt (i : Int) : (ofInt i).RoundedFrom (decide (i < 0)) i.natAbs 1 :=
  roundedFrom_nearest _ _ Nat.one_pos

lemma isInfinite_ofInt (i : Int) :
    (ofInt i).isInfinite = true ↔ 2 ^ 1024 - 2 ^ 970 ≤ i.natAbs := by
  have hrank := @nearestRank_eq_infinityRank_iff i.natAbs 1 Nat.one_pos
  rw [Nat.mul_one] at hrank
  rw [isInfinite, beq_iff_eq, ← hrank]
  rfl

end Binary64

/-! ### Numbers that keep an integer -/

namespace Number

/-- The number is the integer `v`, or `v` does not fit into 64 bits and the number is what `v` is
rounded to. That is infinite from the midpoint on beyond the greatest finite number. -/
inductive Keeps : Number → Int → Prop where
  | integer {i : Int64} {v : Int} (h : i.toInt = v) : Keeps (integer i) v
  | float {x : Binary64} {v : Int} (h : ¬(-2 ^ 63 ≤ v ∧ v < 2 ^ 63))
      (hx : x.RoundedFrom (decide (v < 0)) v.natAbs 1)
      (hinf : x.isInfinite = true ↔ 2 ^ 1024 - 2 ^ 970 ≤ v.natAbs) : Keeps (float x) v

/-- The number of a signed integer keeps it, and widening gives the rounded integer. -/
lemma keeps_ofInteger (s : Sign) (n : Nat) :
    (ofInteger s.isMinus n).Keeps (s.apply n) ∧
      (ofInteger s.isMinus n).toBinary64 = Binary64.ofInt (s.apply n) := by
  obtain ⟨i, hi, hn⟩ | ⟨hlarge, hn⟩ := ofInteger_cases s.isMinus n (v := s.apply n) rfl
  · rw [hn, toBinary64, hi]
    exact ⟨.integer hi, rfl⟩
  · have hne : n ≠ 0 := by
      rintro rfl
      rw [s.apply_zero] at hlarge
      omega
    rw [hn, toBinary64, ← Binary64.ofInt_apply s hne]
    exact ⟨.float hlarge (Binary64.roundedFrom_ofInt _) (Binary64.isInfinite_ofInt _), rfl⟩

end Number

namespace Argument

open Text

/-! ### Tokens -/

lemma literals_of_number? {word : List Char} {n : Number} (h : Token.number? word = some n) :
    literals (String.ofList word) = .ok [.number n] := by
  apply literals_of_spells
  rw [String.toList_ofList]
  exact .of_number? h

/-- Digits with a point and a zero behind them denote the rounded integer. -/
lemma number?_point_zero (sign : Sign) {digits : List Char} (h : isDigits digits = true) :
    Token.number? (sign.text ++ (digits ++ ['.', '0'])) =
      some (.float (.nearest sign.isMinus (value digits) 1)) := by
  have hvalue : value (digits ++ ['0']) = value digits * 10 := value_append_replicate_zero digits 1
  have hrank := Binary64.nearestRank_mul (value digits) Nat.one_pos (show 0 < 10 by omega)
  have hround : Binary64.nearest sign.isMinus (value digits * 10) (1 * 10)
      = Binary64.nearest sign.isMinus (value digits) 1 :=
    Binary64.nearest_eq_of_rank (x := .nearest sign.isMinus (value digits) 1) hrank
  rw [number?_decimal sign h (by decide), hvalue, ← hround]
  rfl

/-- An integer token is read as the number that keeps its integer. As a floating point number that
is the rounded integer; it equals the number of the token with a point and a zero behind it, and it
is not above that of any token with a larger integer. -/
theorem literals_integer {sign : Sign} {digits : List Char} (h : isDigits digits = true) :
    ∃ (n : Number) (x y : Binary64),
      literals (String.ofList (sign.text ++ digits)) = .ok [.number n] ∧
      n.Keeps (sign.apply (value digits)) ∧
      (Literal.number n).asFloat? = some x ∧
      x.RoundedFrom (decide (sign.apply (value digits) < 0)) (sign.apply (value digits)).natAbs 1 ∧
      literals (String.ofList (sign.text ++ (digits ++ ['.', '0']))) = .ok [.number (.float y)] ∧
      x.numEq y = true ∧
      ∀ (sign' : Sign) (digits' : List Char), isDigits digits' = true →
        sign.apply (value digits) ≤ sign'.apply (value digits') →
        ∃ (n' : Number) (x' : Binary64),
          literals (String.ofList (sign'.text ++ digits')) = .ok [.number n'] ∧
          (Literal.number n').asFloat? = some x' ∧ x.numLE x' := by
  have hread : ∀ (s : Sign) {ds : List Char}, isDigits ds = true →
      literals (String.ofList (s.text ++ ds)) = .ok [.number (.ofInteger s.isMinus (value ds))] :=
    fun s _ hds => literals_of_number? (number?_integer s hds)
  have hfloat : ∀ (s : Sign) (n : Nat), (Literal.number (.ofInteger s.isMinus n)).asFloat?
      = some (Binary64.ofInt (s.apply n)) :=
    fun s n => congrArg some (Number.keeps_ofInteger s n).2
  refine ⟨_, _, _, hread sign h, (Number.keeps_ofInteger _ _).1, hfloat _ _,
    Binary64.roundedFrom_ofInt _, literals_of_number? (number?_point_zero sign h),
    Binary64.ofInt_apply_numEq _ _, ?_⟩
  intro sign' digits' h' hle
  exact ⟨_, _, hread sign' h', hfloat _ _, Binary64.ofInt_numLE hle⟩

/-- The integer below the least one of 64 bits, with zeros in front, and that least one. -/
theorem literals_integer_beyond :
    isDigits "009223372036854775809".toList = true ∧ isDigits "9223372036854775808".toList = true ∧
    ∃ (n n' : Number) (x x' y : Binary64),
      literals "-009223372036854775809" = .ok [.number n] ∧ n.Keeps (-9223372036854775809) ∧
      (Literal.number n).asFloat? = some x ∧
      literals "-009223372036854775809.0" = .ok [.number (.float y)] ∧ x.numEq y = true ∧
      literals "-9223372036854775808" = .ok [.number n'] ∧
      (Literal.number n').asFloat? = some x' ∧ x.numLE x' := by
  have hbeyond : isDigits "009223372036854775809".toList = true := by decide
  have hleast : isDigits "9223372036854775808".toList = true := by decide
  obtain ⟨n, x, y, hn, hkeeps, hx, -, hy, heq, hmono⟩ := @literals_integer .minus _ hbeyond
  obtain ⟨n', x', hn', hx', hle⟩ := hmono .minus _ hleast (by decide)
  exact ⟨hbeyond, hleast, n, n', x, x', y, hn, hkeeps, hx, hy, heq, hn', hx', hle⟩

end Argument

end FormatExpr
