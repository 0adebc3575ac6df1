import Mathlib.Algebra.Order.Field.Power
import Mathlib.Data.Rat.Cast.Order
import Mathlib.Tactic.FieldSimp
import Mathlib.Tactic.Linarith
import Mathlib.Tactic.Positivity
import MorphLex.Number.Shortest
import MorphLex.Proofs.Weight.Order

/-!
The shortest decimal stands in the interval of reals that round to the number. Such an
interval is found on every grid that is fine enough, and the intervals of different
numbers have no point in common, so the decimal tells the number.
-/

namespace MorphLex.Decimal

/-- The number that a decimal stands for. -/
def value (number : Decimal) : ℚ := number.digits * 10 ^ number.exponent

section Scaling

theorem zpow_eq_div {base : ℚ} (nonzero : base ≠ 0) (power : Int) :
    base ^ power = base ^ power.toNat / base ^ (-power).toNat := by
  rw [eq_div_iff (pow_ne_zero _ nonzero), ← zpow_natCast, ← zpow_natCast, ← zpow_add₀ nonzero]
  congr 1
  omega

variable (mantissa digits : Nat) (exponent grid : Int)

theorem scaled_unit_pos : (0 : ℚ) < (scaled mantissa exponent grid).2 := by
  rw [scaled]
  positivity

theorem scaled_eq : ((scaled mantissa exponent grid).1 : ℚ) * 10 ^ grid =
    mantissa * 2 ^ exponent * (scaled mantissa exponent grid).2 := by
  rw [scaled, zpow_eq_div (by norm_num : (2 : ℚ) ≠ 0) exponent,
    zpow_eq_div (by norm_num : (10 : ℚ) ≠ 0) grid]
  push_cast
  field_simp

theorem scaled_le_iff :
    (scaled mantissa exponent grid).1 ≤ digits * (scaled mantissa exponent grid).2 ↔
    (mantissa : ℚ) * 2 ^ exponent ≤ digits * 10 ^ grid := by
  rw [← Nat.cast_le (α := ℚ), Nat.cast_mul,
    ← mul_le_mul_iff_left₀ (zpow_pos (by norm_num : (0 : ℚ) < 10) grid), scaled_eq,
    mul_right_comm (digits : ℚ), mul_le_mul_iff_left₀ (scaled_unit_pos mantissa exponent grid)]

theorem le_scaled_iff :
    digits * (scaled mantissa exponent grid).2 ≤ (scaled mantissa exponent grid).1 ↔
    digits * 10 ^ grid ≤ (mantissa : ℚ) * 2 ^ exponent := by
  rw [← Nat.cast_le (α := ℚ), Nat.cast_mul,
    ← mul_le_mul_iff_left₀ (zpow_pos (by norm_num : (0 : ℚ) < 10) grid), scaled_eq,
    mul_right_comm (digits : ℚ), mul_le_mul_iff_left₀ (scaled_unit_pos mantissa exponent grid)]

end Scaling

section Interval

/-- The quarters of a unit down to the middle between the number and the one below it. -/
def gap (mantissa : Nat) (exponent : Int) : Nat :=
  if mantissa = 2 ^ 52 ∧ -1074 < exponent then 1 else 2

def lower (mantissa : Nat) (exponent : Int) : ℚ :=
  (4 * mantissa - gap mantissa exponent : Nat) * 2 ^ (exponent - 2)

def upper (mantissa : Nat) (exponent : Int) : ℚ := (4 * mantissa + 2 : Nat) * 2 ^ (exponent - 2)

/-- The point rounds to the number; the ends of the interval do so for an even mantissa. -/
def Within (mantissa : Nat) (exponent : Int) (point : ℚ) : Prop :=
  if mantissa % 2 = 0 then lower mantissa exponent ≤ point ∧ point ≤ upper mantissa exponent
  else lower mantissa exponent < point ∧ point < upper mantissa exponent

theorem reads_back_iff (mantissa digits : Nat) (exponent grid : Int) :
    readsBack mantissa exponent grid digits = true ↔
      Within mantissa exponent (digits * 10 ^ grid) := by
  have low := scaled_le_iff (4 * mantissa - gap mantissa exponent) digits (exponent - 2) grid
  have high := le_scaled_iff (4 * mantissa + 2) digits (exponent - 2) grid
  have notLow :=
    not_congr (le_scaled_iff (4 * mantissa - gap mantissa exponent) digits (exponent - 2) grid)
  have notHigh := not_congr (scaled_le_iff (4 * mantissa + 2) digits (exponent - 2) grid)
  rw [not_le, not_le] at notLow notHigh
  have unit : (scaled (4 * mantissa + 2) (exponent - 2) grid).2 =
      (scaled (4 * mantissa - gap mantissa exponent) (exponent - 2) grid).2 := rfl
  rw [unit] at high notHigh
  rw [readsBack.eq_def, Within, lower, upper]
  dsimp only
  rw [← gap]
  by_cases even : mantissa % 2 = 0
  · rw [if_pos even, if_pos even, Bool.and_eq_true, decide_eq_true_iff,
      decide_eq_true_iff, low, high]
  · rw [if_neg even, if_neg even, Bool.and_eq_true, decide_eq_true_iff, decide_eq_true_iff,
      notLow, notHigh]

variable {mantissa other : Nat} {exponent further : Int} {point : ℚ}

theorem Within.le_upper (within : Within mantissa exponent point) :
    point ≤ upper mantissa exponent ∧ (mantissa % 2 = 1 → point < upper mantissa exponent) := by
  rw [Within] at within
  split at within
  · next even => exact ⟨within.2, fun odd => by omega⟩
  · exact ⟨within.2.le, fun _ => within.2⟩

theorem Within.lower_le (within : Within mantissa exponent point) :
    lower mantissa exponent ≤ point ∧ (mantissa % 2 = 1 → lower mantissa exponent < point) := by
  rw [Within] at within
  split at within
  · next even => exact ⟨within.1, fun odd => by omega⟩
  · exact ⟨within.1.le, fun _ => within.1⟩

theorem gap_le (mantissa : Nat) (exponent : Int) : gap mantissa exponent ≤ 2 := by
  rw [gap]
  split <;> decide

/-- Neighbours with the same exponent meet in an end that belongs to one of them. -/
theorem apart_of_mantissa (less : mantissa < other) (first : Within mantissa exponent point)
    (second : Within other exponent point) : False := by
  have quarter : (0 : ℚ) < 2 ^ (exponent - 2) := zpow_pos (by norm_num) _
  have bound := gap_le other exponent
  have ends := first.le_upper
  have starts := second.lower_le
  rw [upper] at ends
  rw [lower] at starts
  rcases Nat.lt_or_eq_of_le (show 4 * mantissa + 2 ≤ 4 * other - gap other exponent by omega) with
      wide | meet
  · have beyond := mul_lt_mul_of_pos_right (Nat.cast_lt (α := ℚ).mpr wide) quarter
    linarith
  · rw [← meet] at starts
    rcases Nat.mod_two_eq_zero_or_one mantissa with even | odd
    · have after := starts.2 (by omega)
      linarith
    · have before := ends.2 odd
      linarith

/-- A number with a larger exponent begins, at the earliest, where the last one with a smaller
exponent ends. -/
theorem apart_of_exponent (form : Weight.Canonical mantissa exponent)
    (others : Weight.Canonical other further) (less : exponent < further)
    (first : Within mantissa exponent point) (second : Within other further point) : False := by
  have quarter : (0 : ℚ) < 2 ^ (exponent - 2) := zpow_pos (by norm_num) _
  have above := form.above
  have filled : 2 ^ 52 ≤ other := others.wide.resolve_right (by omega)
  have start : 2 ^ 54 - 1 ≤ 4 * other - gap other further := by
    rw [gap]
    split
    · omega
    · next wide =>
      have more : other ≠ 2 ^ 52 := fun least => wide ⟨least, by omega⟩
      omega
  have double : (2 : ℚ) * 2 ^ (exponent - 2) ≤ 2 ^ (further - 2) := by
    rw [← zpow_one_add₀ (by norm_num)]
    exact zpow_le_zpow_right₀ (by norm_num) (by omega)
  have ends := first.le_upper
  have starts := second.lower_le.1
  rw [upper] at ends
  rw [lower] at starts
  have begins : ((2 ^ 55 - 2 : Nat) : ℚ) * 2 ^ (exponent - 2) ≤ point := by
    calc ((2 ^ 55 - 2 : Nat) : ℚ) * 2 ^ (exponent - 2) =
      ((2 ^ 54 - 1 : Nat) : ℚ) * (2 * 2 ^ (exponent - 2)) := by
          rw [← mul_assoc]
          norm_num
      _ ≤ ((4 * other - gap other further : Nat) : ℚ) * 2 ^ (further - 2) :=
          mul_le_mul (Nat.cast_le.mpr start) double (by positivity) (Nat.cast_nonneg _)
      _ ≤ point := starts
  have narrow := form.narrow
  rcases Nat.lt_or_eq_of_le (show 4 * mantissa + 2 ≤ 2 ^ 55 - 2 by omega) with short | meet
  · have beyond := mul_lt_mul_of_pos_right (Nat.cast_lt (α := ℚ).mpr short) quarter
    linarith
  · have before := ends.2 (by omega)
    rw [meet] at before
    linarith

/-- A point rounds to one number only. -/
theorem within_unique (form : Weight.Canonical mantissa exponent)
    (others : Weight.Canonical other further) (first : Within mantissa exponent point)
    (second : Within other further point) : mantissa = other ∧ exponent = further := by
  rcases lt_trichotomy exponent further with less | rfl | more
  · exact (apart_of_exponent form others less first second).elim
  · refine ⟨?_, rfl⟩
    rcases lt_trichotomy mantissa other with less | same | more
    · exact (apart_of_mantissa less first second).elim
    · exact same
    · exact (apart_of_mantissa more second first).elim
  · exact (apart_of_exponent others form more second first).elim

end Interval

section Search

variable {mantissa digits : Nat} {exponent grid : Int}

theorem of_on_grid (found : onGrid mantissa exponent grid = some digits) :
    0 < digits ∧ readsBack mantissa exponent grid digits = true := by
  rw [onGrid] at found
  grind

/-- The interval holds the next half of a unit above the number. -/
theorem within_of_between {point : ℚ} (least : mantissa * 2 ^ exponent < point)
    (most : point < mantissa * 2 ^ exponent + 2 ^ (exponent - 1)) :
    Within mantissa exponent point := by
  have quarter : (0 : ℚ) < 2 ^ (exponent - 2) := zpow_pos (by norm_num) _
  have whole : (2 : ℚ) ^ exponent = 4 * 2 ^ (exponent - 2) := by
    rw [show exponent = (exponent - 2) + 2 by omega, zpow_add₀ (by norm_num)]
    norm_num
    ring
  have half : (2 : ℚ) ^ (exponent - 1) = 2 * 2 ^ (exponent - 2) := by
    rw [show exponent - 1 = 1 + (exponent - 2) by omega, zpow_one_add₀ (by norm_num)]
  have below : lower mantissa exponent ≤ mantissa * 2 ^ exponent := by
    have fewer : ((4 * mantissa - gap mantissa exponent : Nat) : ℚ) ≤ 4 * mantissa := by
      exact_mod_cast Nat.sub_le (4 * mantissa) (gap mantissa exponent)
    calc lower mantissa exponent ≤ 4 * mantissa * 2 ^ (exponent - 2) :=
      mul_le_mul_of_nonneg_right fewer quarter.le
      _ = mantissa * 2 ^ exponent := by rw [whole]; ring
  have above : upper mantissa exponent = mantissa * 2 ^ exponent + 2 ^ (exponent - 1) := by
    rw [upper, whole, half]
    push_cast
    ring
  rw [Within]
  split
  · exact ⟨below.trans least.le, (most.trans_eq above.symm).le⟩
  · exact ⟨below.trans_lt least, most.trans_eq above.symm⟩

/-- Half a unit of the number is more than a step of a fine grid, so that the next
point above the number reads back. -/
theorem on_grid_of_fine (fine : (10 : ℚ) ^ grid < 2 ^ (exponent - 1)) :
    onGrid mantissa exponent grid ≠ none := by
  have under :=
    (le_scaled_iff mantissa ((scaled mantissa exponent grid).1 / (scaled mantissa exponent grid).2)
    exponent grid).mp (Nat.div_mul_le_self _ _)
  have after := not_congr (le_scaled_iff mantissa
    ((scaled mantissa exponent grid).1 / (scaled mantissa exponent grid).2 + 1) exponent grid)
  have shape := onGrid.eq_def mantissa exponent grid
  have unit : 0 < (scaled mantissa exponent grid).2 := by
    exact_mod_cast scaled_unit_pos mantissa exponent grid
  generalize scaled mantissa exponent grid = fraction at under after shape unit
  obtain ⟨amount, step⟩ := fraction
  dsimp only at under after shape unit
  have next : (mantissa : ℚ) * 2 ^ exponent < (amount / step + 1 : Nat) * 10 ^ grid :=
    not_le.mp
      (after.mp (not_le.mpr ((Nat.lt_mul_div_succ amount unit).trans_eq (Nat.mul_comm _ _))))
  have fits : readsBack mantissa exponent grid (amount / step + 1) = true := by
    refine (reads_back_iff _ _ _ _).mpr (within_of_between next ?_)
    push_cast
    linarith
  rw [shape, fits]
  grind

/-- The first grid with a point that reads back is found. -/
theorem exists_first_grid {count : Nat} {finest : Int} (finer : finest ≤ grid)
    (near : grid < finest + count) (found : onGrid mantissa exponent finest ≠ none) :
    ∃ digits place,
      firstGrid mantissa exponent count grid = some ⟨digits, place⟩ ∧
      onGrid mantissa exponent place = some digits := by
  induction count generalizing grid with
  | zero => omega
  | succ count hypothesis =>
      rw [firstGrid]
      cases here : onGrid mantissa exponent grid with
      | some digits => exact ⟨digits, grid, rfl, here⟩
      | none =>
          have past : finest ≠ grid := by
            rintro rfl
            exact found here
          exact hypothesis (by omega) (by omega)

theorem pow_zpow (base : ℚ) (power : Int) (times : Nat) :
    (base ^ power) ^ times = (base ^ times) ^ power := by
  rw [← zpow_natCast, ← zpow_natCast, ← zpow_mul, ← zpow_mul, mul_comm]

/-- A decimal grid far below the number is fine. -/
theorem fine_of_le (above : -1074 ≤ exponent) (below : exponent ≤ 971)
    (deep : grid ≤ (exponent + 53) * 30103 / 100000 - 21) :
    (10 : ℚ) ^ grid < 2 ^ (exponent - 1) := by
  rcases Int.lt_or_le grid 0 with negative | positive
  · -- 28 decimal digits are 93 binary ones.
    have power : ((10 : ℚ) ^ grid) ^ 28 < ((2 : ℚ) ^ (exponent - 1)) ^ 28 := by
      calc ((10 : ℚ) ^ grid) ^ 28 = ((10 ^ 28) ^ (-grid))⁻¹ := by rw [pow_zpow, zpow_neg, inv_inv]
        _ ≤ ((2 ^ 93) ^ (-grid))⁻¹ :=
            inv_anti₀ (by positivity) (zpow_le_zpow_left₀ (by omega) (by norm_num) (by norm_num))
        _ = 2 ^ (93 * grid) := by rw [zpow_neg, inv_inv, zpow_mul, zpow_ofNat]
        _ < 2 ^ (28 * (exponent - 1)) := zpow_lt_zpow_right₀ (by norm_num) (by omega)
        _ = ((2 : ℚ) ^ (exponent - 1)) ^ 28 := by rw [pow_zpow, zpow_mul, zpow_ofNat]
    exact lt_of_pow_lt_pow_left₀ 28 (by positivity) power
  · -- 3 decimal digits are less than 10 binary ones.
    have power : ((10 : ℚ) ^ grid) ^ 3 < ((2 : ℚ) ^ (exponent - 1)) ^ 3 := by
      calc ((10 : ℚ) ^ grid) ^ 3 = (10 ^ 3) ^ grid := pow_zpow 10 grid 3
        _ ≤ (2 ^ 10) ^ grid := zpow_le_zpow_left₀ positive (by norm_num) (by norm_num)
        _ = 2 ^ (10 * grid) := by rw [zpow_mul, zpow_ofNat]
        _ < 2 ^ (3 * (exponent - 1)) := zpow_lt_zpow_right₀ (by norm_num) (by omega)
        _ = ((2 : ℚ) ^ (exponent - 1)) ^ 3 := by rw [pow_zpow, zpow_mul, zpow_ofNat]
    exact lt_of_pow_lt_pow_left₀ 3 (by positivity) power

/-- The 24 grids that are tried reach one that is fine. -/
theorem shortest_spec (form : Weight.Canonical mantissa exponent) (finite : exponent ≤ 971)
    (positive : 0 < mantissa) :
    0 < (shortest mantissa exponent).digits ∧
      Within mantissa exponent (shortest mantissa exponent).value := by
  have narrow : mantissa.log2 < 53 := (Nat.log2_lt positive.ne').mpr form.narrow
  have deep : coarsestGrid mantissa exponent - 23 ≤ (exponent + 53) * 30103 / 100000 - 21 := by
    rw [coarsestGrid]
    omega
  have finest : onGrid mantissa exponent (coarsestGrid mantissa exponent - 23) ≠ none :=
    on_grid_of_fine (fine_of_le form.above finite deep)
  obtain ⟨digits, grid, first, found⟩ : ∃ digits place,
      firstGrid mantissa exponent 24 (coarsestGrid mantissa exponent) = some ⟨digits, place⟩ ∧
        onGrid mantissa exponent place = some digits :=
          exists_first_grid (by omega) (by omega) finest
  obtain ⟨some, reads⟩ := of_on_grid found
  rw [shortest, if_neg positive.ne', first, Option.getD_some]
  exact ⟨some, (reads_back_iff _ _ _ _).mp reads⟩

theorem shortest_value_eq_zero_iff (form : Weight.Canonical mantissa exponent)
    (finite : exponent ≤ 971) : (shortest mantissa exponent).value = 0 ↔ mantissa = 0 := by
  rcases Nat.eq_zero_or_pos mantissa with rfl | positive
  · simp [shortest, value]
  · have some : ((shortest mantissa exponent).digits : ℚ) ≠ 0 :=
      Nat.cast_ne_zero.mpr (shortest_spec form finite positive).1.ne'
    exact iff_of_false (mul_ne_zero some (zpow_ne_zero _ (by norm_num))) positive.ne'

/-- Different numbers have different shortest decimals. -/
theorem shortest_value_injective {other : Nat} {further : Int}
    (form : Weight.Canonical mantissa exponent) (finite : exponent ≤ 971)
    (others : Weight.Canonical other further) (bounded : further ≤ 971)
    (same : (shortest mantissa exponent).value = (shortest other further).value) :
    mantissa = other ∧ exponent = further := by
  have zero := shortest_value_eq_zero_iff form finite
  rw [same, shortest_value_eq_zero_iff others bounded] at zero
  rcases Nat.eq_zero_or_pos mantissa with none | positive
  · obtain rfl := zero.mpr none
    subst none
    exact ⟨rfl,
      (form.wide.resolve_left (by decide)).trans (others.wide.resolve_left (by decide)).symm⟩
  · have also : 0 < other := Nat.pos_of_ne_zero (mt zero.mp positive.ne')
    have first := (shortest_spec form finite positive).2
    rw [same] at first
    exact within_unique form others first (shortest_spec others bounded also).2

end Search

end MorphLex.Decimal
