/-!
# The shortest decimal of a double

A double is known by its sign and by its *rank*: how many doubles lie between it and
zero. The ranks of the non-negative doubles are their bit patterns, and `unitsAt`
gives the double of a rank as a whole number of units, one unit being the least
positive double `2⁻¹⁰⁷⁴`. Everything here is exact arithmetic on those numbers.

A decimal reads back as a double when it lies between the half-way points to that
double's two neighbours; a half-way point itself goes to the neighbour of even rank
(`ReadsBackAs`). The shortest decimal (`shortest`) is found by trying the powers of
ten as grids, from a coarse one to ever finer ones, until one of the two grid points
around the double reads back. The grid `10⁻¹⁰⁷⁴` holds every double, so the search
ends.
-/

namespace LoxLang

/-- The number `digits · 10 ^ exponent`. -/
structure Decimal where
  digits : Nat
  exponent : Int
  deriving DecidableEq

namespace Decimal

/-! ### Doubles by rank -/

/-- The rank of a double: its bit pattern without the sign bit. -/
def rank (x : Float) : Nat := x.toBits.toNat % Nat.pow 2 63

/-- The rank of the infinities; the ranks above it are those of no number. -/
def infiniteRank : Nat := 2047 * Nat.pow 2 52

/-- The sign bit of a double. -/
def isNegative (x : Float) : Bool := x.toBits.toNat / Nat.pow 2 63 == 1

/-- The double of rank `k`, counted in units of `2⁻¹⁰⁷⁴`. -/
def unitsAt (k : Nat) : Nat :=
  if k / Nat.pow 2 52 = 0 then k
  else (Nat.pow 2 52 + k % Nat.pow 2 52) * Nat.pow 2 (k / Nat.pow 2 52 - 1)

/-! ### Reading back -/

/-- The decimal is nearer to the double of rank `k` than to any other double, a half-way
point counting as nearer to the even rank. All is scaled by `2¹⁰⁷⁵` and by the power of
ten that makes the decimal whole. -/
def ReadsBackAs (d : Decimal) (k : Nat) : Prop :=
  let value := d.digits * Nat.pow 10 d.exponent.toNat * Nat.pow 2 1075
  let scale := Nat.pow 10 (-d.exponent).toNat
  let low := (unitsAt (k - 1) + unitsAt k) * scale
  let high := (unitsAt k + unitsAt (k + 1)) * scale
  if k % 2 = 0 then low ≤ value ∧ value ≤ high else low < value ∧ value < high

instance (d : Decimal) (k : Nat) : Decidable (d.ReadsBackAs k) := by
  unfold ReadsBackAs; infer_instance

/-! ### The search -/

/-- The point of the grid `10 ^ exponent` that stands for the double of rank `k`: of the
two points around it, one that reads back; of two such points the nearer, and of two
equally near ones the upper. -/
def onGrid (k : Nat) (exponent : Int) : Option Decimal :=
  let numerator := unitsAt k * Nat.pow 10 (-exponent).toNat
  let denominator := Nat.pow 2 1074 * Nat.pow 10 exponent.toNat
  let lower : Decimal := ⟨numerator / denominator, exponent⟩
  let upper : Decimal := ⟨numerator / denominator + 1, exponent⟩
  if lower.ReadsBackAs k then
    if denominator ≤ 2 * (numerator % denominator) ∧ upper.ReadsBackAs k then some upper
    else some lower
  else if upper.ReadsBackAs k then some upper
  else none

/-- The first hit among the grids `10 ^ (step - 1074)`, …, `10⁻¹⁰⁷³`, `10⁻¹⁰⁷⁴`; the last
one holds the double itself. -/
def coarsest (k : Nat) : Nat → Decimal
  | 0 => ⟨unitsAt k * Nat.pow 5 1074, -1074⟩
  | step + 1 =>
    match onGrid k ((step : Int) + 1 - 1074) with
    | some d => d
    | none => coarsest k step

/-- A step whose grid is coarser than twice the double of rank `k`, so that no point of a
still coarser grid but zero could read back: `log₁₀ 2` is just below `0.30103`. -/
def firstStep (k : Nat) : Nat := 752 + (Nat.log2 (unitsAt k) + 2) * 30103 / 100000

/-- The decimal with the fewest digits that reads back as the double of rank `k`. -/
def shortest (k : Nat) : Decimal := if k = 0 then ⟨0, 0⟩ else coarsest k (firstStep k)

end Decimal

end LoxLang
