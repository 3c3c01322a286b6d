import LoxLang.Decimal.Shortest
import Mathlib.Algebra.Order.Field.Power
import Mathlib.Algebra.Order.Field.Rat
import Mathlib.Tactic.FieldSimp
import Mathlib.Tactic.Ring
import Mathlib.Tactic.WLOG

/-!
# Decimals read back

The points half-way between neighbouring doubles grow with the rank, so a number is nearest to one
double at most (`Nearest.unique`), and `ReadsBackAs` compares whole numbers to find out which one it
is (`readsBackAs_iff`). The search for the shortest decimal only takes decimals that read back, and
on the finest grid stands the double itself: the shortest decimal of a double is nearest to this
double (`readsBackAs_shortest`), so no two doubles share one (`value_shortest_injective`).
-/

namespace LoxLang.Decimal

/-! ### Doubles in order -/

/-- A double is less than the next one. -/
theorem unitsAt_lt_succ (k : Nat) : unitsAt k < unitsAt (k + 1) := by
  have hspan : Nat.pow 2 52 = 4503599627370496 := rfl
  unfold unitsAt
  rw [hspan]
  have hpos : 0 < Nat.pow 2 (k / 4503599627370496 - 1) := Nat.two_pow_pos _
  by_cases hlast : k % 4503599627370496 + 1 = 4503599627370496
  · -- The next double is the first one with its exponent.
    have hdiv : (k + 1) / 4503599627370496 = k / 4503599627370496 + 1 := by omega
    have hmod : (k + 1) % 4503599627370496 = 0 := by omega
    rw [hdiv, hmod, if_neg (Nat.succ_ne_zero _), Nat.add_sub_cancel, Nat.add_zero]
    generalize hbinade : k / 4503599627370496 = binade at hpos ⊢
    cases binade with
    | zero =>
      rw [if_pos rfl]
      show k < 4503599627370496 * 1
      omega
    | succ binade =>
      rw [if_neg (Nat.succ_ne_zero _), Nat.add_sub_cancel] at *
      have hpow : Nat.pow 2 (binade + 1) = Nat.pow 2 binade * 2 := rfl
      calc (4503599627370496 + k % 4503599627370496) * Nat.pow 2 binade
          < (4503599627370496 * 2) * Nat.pow 2 binade :=
            Nat.mul_lt_mul_of_pos_right (by omega) hpos
        _ = 4503599627370496 * Nat.pow 2 (binade + 1) := by rw [hpow]; ring
  · -- Both have the same exponent.
    have hdiv : (k + 1) / 4503599627370496 = k / 4503599627370496 := by omega
    have hmod : (k + 1) % 4503599627370496 = k % 4503599627370496 + 1 := by omega
    rw [hdiv, hmod]
    split
    · exact Nat.lt_succ_self k
    · exact Nat.mul_lt_mul_of_pos_right (by omega) hpos

theorem unitsAt_strictMono : StrictMono unitsAt := strictMono_nat_of_lt_succ unitsAt_lt_succ

/-! ### Numbers and the doubles nearest to them -/

/-- The number that a decimal is. -/
def value (d : Decimal) : ℚ := d.digits * 10 ^ d.exponent

/-- How many half units make one. -/
def perOne : Nat := Nat.pow 2 1075

theorem perOne_pos : (0 : ℚ) < perOne := by
  unfold perOne
  generalize 1075 = places
  exact Nat.cast_pos.mpr (Nat.two_pow_pos places)

/-- The number half-way between the double of rank `k` and the one before it; below zero there
is none. -/
def halfway (k : Nat) : ℚ := (unitsAt (k - 1) + unitsAt k : Nat) / perOne

theorem halfway_strictMono : StrictMono halfway := by
  refine strictMono_nat_of_lt_succ fun k => ?_
  have hlt : unitsAt (k - 1) < unitsAt (k + 1) := unitsAt_strictMono (by omega)
  have hsum : unitsAt (k - 1) + unitsAt k < unitsAt (k + 1 - 1) + unitsAt (k + 1) := by
    rw [Nat.add_sub_cancel]
    omega
  exact div_lt_div_of_pos_right (Nat.cast_lt.mpr hsum) perOne_pos

/-- The number is nearer to the double of rank `k` than to any other, a number half-way between two
being nearer to the even rank. -/
def Nearest (x : ℚ) (k : Nat) : Prop :=
  if k % 2 = 0 then halfway k ≤ x ∧ x ≤ halfway (k + 1) else halfway k < x ∧ x < halfway (k + 1)

theorem Nearest.bounds {x : ℚ} {k : Nat} (h : Nearest x k) :
    halfway k ≤ x ∧ x ≤ halfway (k + 1) := by
  unfold Nearest at h
  split at h
  · exact h
  · exact ⟨h.1.le, h.2.le⟩

/-- **No number is nearest to two doubles.** -/
theorem Nearest.unique {x : ℚ} {k l : Nat} (h : Nearest x k) (h' : Nearest x l) : k = l := by
  wlog hlt : k < l generalizing k l
  · rcases Nat.lt_or_eq_of_le (Nat.le_of_not_lt hlt) with hgt | heq
    · exact (this h' h hgt).symm
    · exact heq.symm
  -- Only the point half-way between neighbours is left to both, and one of the ranks is odd.
  have hpoints : halfway l ≤ halfway (k + 1) := h'.bounds.1.trans h.bounds.2
  have hnext : l = k + 1 := Nat.le_antisymm (halfway_strictMono.le_iff_le.mp hpoints) hlt
  subst hnext
  have hx : x = halfway (k + 1) := le_antisymm h.bounds.2 h'.bounds.1
  unfold Nearest at h h'
  rcases Nat.mod_two_eq_zero_or_one k with heven | hodd
  · rw [if_neg (by omega)] at h'
    exact absurd hx.symm h'.1.ne
  · rw [if_neg (by omega)] at h
    exact absurd hx h.2.ne

section Compare

variable (d : Decimal) (units : Nat)

/-- The number, scaled until it is whole. -/
theorem value_mul : d.value * perOne * (Nat.pow 10 (-d.exponent).toNat : Nat) =
    (d.digits * Nat.pow 10 d.exponent.toNat * perOne : Nat) := by
  have hpow : (10 : ℚ) ^ d.exponent * 10 ^ (-d.exponent).toNat = 10 ^ d.exponent.toNat := by
    rw [← zpow_natCast, ← zpow_natCast, ← zpow_add₀ (by norm_num)]
    congr 1
    omega
  have hcast (n : Nat) : ((Nat.pow 10 n : Nat) : ℚ) = 10 ^ n := Nat.cast_pow 10 n
  rw [value, Nat.cast_mul, Nat.cast_mul, hcast, hcast, ← hpow]
  ring

theorem scale_pos : (0 : ℚ) < (Nat.pow 10 (-d.exponent).toNat : Nat) :=
  Nat.cast_pos.mpr (Nat.pow_pos (by decide))

/-- A number of half units is compared with a decimal as their whole multiples are. -/
theorem le_value_iff : (units : ℚ) / perOne ≤ d.value ↔
    units * Nat.pow 10 (-d.exponent).toNat ≤
      d.digits * Nat.pow 10 d.exponent.toNat * perOne := by
  rw [div_le_iff₀ perOne_pos, ← mul_le_mul_iff_of_pos_right d.scale_pos, value_mul,
    ← Nat.cast_mul, Nat.cast_le]

theorem value_le_iff : d.value ≤ (units : ℚ) / perOne ↔
    d.digits * Nat.pow 10 d.exponent.toNat * perOne ≤
      units * Nat.pow 10 (-d.exponent).toNat := by
  rw [le_div_iff₀ perOne_pos, ← mul_le_mul_iff_of_pos_right d.scale_pos, value_mul,
    ← Nat.cast_mul, Nat.cast_le]

end Compare

/-- A decimal reads back as the double that is nearest to its number. -/
theorem readsBackAs_iff (d : Decimal) (k : Nat) : d.ReadsBackAs k ↔ Nearest d.value k := by
  unfold ReadsBackAs Nearest halfway
  rw [Nat.add_sub_cancel, le_value_iff, value_le_iff, lt_iff_lt_of_le_iff_le (value_le_iff _ _),
    lt_iff_lt_of_le_iff_le (le_value_iff _ _)]
  unfold perOne
  exact Iff.rfl

/-! ### The shortest decimal -/

theorem readsBackAs_of_onGrid {k : Nat} {exponent : Int} {d : Decimal}
    (h : onGrid k exponent = some d) : d.ReadsBackAs k := by
  unfold onGrid at h
  dsimp only at h
  split at h
  · next hlower =>
    split at h
    · next hupper => exact Option.some.inj h ▸ hupper.2
    · exact Option.some.inj h ▸ hlower
  · split at h
    · next hupper => exact Option.some.inj h ▸ hupper
    · exact absurd h (by simp)

/-- The number that a double is, is nearest to this double. -/
theorem nearest_units (k : Nat) : Nearest ((2 * unitsAt k : Nat) / perOne) k := by
  have hhigh : unitsAt k < unitsAt (k + 1) := unitsAt_lt_succ k
  unfold Nearest halfway
  rw [Nat.add_sub_cancel, div_le_div_iff_of_pos_right perOne_pos,
    div_le_div_iff_of_pos_right perOne_pos, div_lt_div_iff_of_pos_right perOne_pos,
    div_lt_div_iff_of_pos_right perOne_pos, Nat.cast_le, Nat.cast_le, Nat.cast_lt, Nat.cast_lt]
  split
  · have hlow : unitsAt (k - 1) ≤ unitsAt k := unitsAt_strictMono.monotone (Nat.sub_le k 1)
    omega
  · have hlow : unitsAt (k - 1) < unitsAt k := unitsAt_strictMono (by omega)
    omega

theorem cast_five_pow_mul (n : Nat) :
    ((Nat.pow 5 n : Nat) : ℚ) * 10 ^ (-(n : ℤ)) = 2 / (Nat.pow 2 (n + 1) : Nat) := by
  have hten : (10 : ℚ) ^ n = 5 ^ n * 2 ^ n := by
    rw [← mul_pow]
    norm_num
  rw [zpow_neg, zpow_natCast, hten, Nat.pow_eq, Nat.pow_eq, Nat.cast_pow, Nat.cast_pow, pow_succ]
  push_cast
  field_simp

/-- On the finest grid stands the double itself. -/
theorem value_coarsest_zero (k : Nat) : (coarsest k 0).value = (2 * unitsAt k : Nat) / perOne := by
  have hplace : (-1074 : ℤ) = -((1074 : Nat) : ℤ) := rfl
  have hnext : 1075 = 1074 + 1 := rfl
  unfold perOne
  rw [coarsest, value, hplace, hnext]
  generalize 1074 = places
  rw [Nat.cast_mul, mul_assoc, cast_five_pow_mul, Nat.cast_mul, Nat.cast_ofNat]
  ring

theorem readsBackAs_coarsest (k step : Nat) : (coarsest k step).ReadsBackAs k := by
  induction step with
  | zero =>
    rw [readsBackAs_iff, value_coarsest_zero]
    exact nearest_units k
  | succ step ih =>
    rw [coarsest]
    split
    · next hhit => exact readsBackAs_of_onGrid hhit
    · exact ih

/-- **The shortest decimal of a double reads back as this double.** -/
theorem readsBackAs_shortest (k : Nat) : (shortest k).ReadsBackAs k := by
  unfold shortest
  split
  · next h =>
    subst h
    have hzero : value ⟨0, 0⟩ = (2 * unitsAt 0 : Nat) / perOne := by
      have hunits : unitsAt 0 = 0 := rfl
      rw [value, hunits, Nat.mul_zero, Nat.cast_zero, zero_mul, zero_div]
    rw [readsBackAs_iff, hzero]
    exact nearest_units 0
  · exact readsBackAs_coarsest k _

/-- **Different doubles have different shortest decimals**, also as numbers. -/
theorem value_shortest_injective : Function.Injective fun k => (shortest k).value := by
  intro k l h
  have hnearest := (readsBackAs_iff _ _).mp (readsBackAs_shortest k)
  have hnearest' := (readsBackAs_iff _ _).mp (readsBackAs_shortest l)
  rw [show (shortest k).value = (shortest l).value from h] at hnearest
  exact hnearest.unique hnearest'

end LoxLang.Decimal
