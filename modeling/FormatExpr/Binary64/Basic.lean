/-!
# Binary floating point numbers of 64 bits

A number is a sign and a *rank*: its place among the magnitudes, counted from zero. Ranks below
`infinityRank` are the finite magnitudes in increasing order, then comes infinity, and the ranks
after it are not numbers. Sign and rank side by side are the bits of the interchange format.

Every finite magnitude is a multiple of the least positive one, two to the power -1074. `units` is
that multiple, so that exact arithmetic on magnitudes is arithmetic on natural numbers.
-/

namespace FormatExpr

/-- How many ranks fit into 63 bits. -/
def rankCount : Nat := 0x8000000000000000

/-- A sign and a rank. -/
structure Binary64 where
  negative : Bool
  rank : Nat
  rank_lt : rank < rankCount
  deriving DecidableEq, Repr

namespace Binary64

/-- How many ranks have magnitudes of one binary exponent. -/
def ranksPerExponent : Nat := 0x10000000000000

/-- The rank of infinity. -/
def infinityRank : Nat := 0x7FF0000000000000

theorem infinityRank_lt : infinityRank < rankCount := by decide

/-! ### Bits -/

/-- The bits of the interchange format: the sign is the highest bit. -/
def toBits (x : Binary64) : Nat :=
  if x.negative then rankCount + x.rank else x.rank

/-- The number with the given bits; bits above the 64th are dropped. -/
def ofBits (bits : Nat) : Binary64 :=
  ⟨bits / rankCount % 2 == 1, bits % rankCount, Nat.mod_lt _ (by decide)⟩

@[simp] theorem ofBits_toBits (x : Binary64) : ofBits x.toBits = x := by
  obtain ⟨negative, rank, h⟩ := x
  unfold rankCount at h
  cases negative
  · have hq : rank / rankCount % 2 = 0 := by unfold rankCount; omega
    have hr : rank % rankCount = rank := by unfold rankCount; omega
    simp only [ofBits, toBits, Bool.false_eq_true, if_false, hq, hr]
    rfl
  · have hq : (rankCount + rank) / rankCount % 2 = 1 := by unfold rankCount; omega
    have hr : (rankCount + rank) % rankCount = rank := by unfold rankCount; omega
    simp only [ofBits, toBits, if_true, hq, hr]
    rfl

/-! ### Special values -/

/-- Zero of the given sign. -/
def zero (negative : Bool) : Binary64 := ⟨negative, 0, by decide⟩

/-- Infinity of the given sign. -/
def infinity (negative : Bool) : Binary64 := ⟨negative, infinityRank, infinityRank_lt⟩

/-- The quiet NaN that stands for every NaN. -/
def nan : Binary64 := ⟨false, 0x7FF8000000000000, by decide⟩

/-- The number is finite. -/
def isFinite (x : Binary64) : Bool := x.rank < infinityRank

/-- Not a number. -/
def isNaN (x : Binary64) : Bool := infinityRank < x.rank

/-- Infinity of either sign. -/
def isInfinite (x : Binary64) : Bool := x.rank == infinityRank

/-! ### Magnitude -/

/-- The magnitude with the given rank, in units. The ranks of the least binary exponent start at
zero; those of every further exponent have one more leading digit and take twice the step. -/
def unitsOfRank (rank : Nat) : Nat :=
  if rank < ranksPerExponent then rank
  else (ranksPerExponent + rank % ranksPerExponent) <<< (rank / ranksPerExponent - 1)

/-- The magnitude of a finite number in units. -/
def units (x : Binary64) : Nat := unitsOfRank x.rank

/-- How many units make up one. -/
def unitsPerOne : Nat := 1 <<< 1074

/-- A finite number without a fraction. -/
def isIntegral (x : Binary64) : Bool := x.isFinite && x.units % unitsPerOne == 0

/-- The equality of the arithmetic standard: NaN differs from itself, and the two zeros are
equal. -/
def numEq (x y : Binary64) : Bool :=
  !x.isNaN && !y.isNaN && (x == y || (x.rank == 0 && y.rank == 0))

end Binary64

end FormatExpr
