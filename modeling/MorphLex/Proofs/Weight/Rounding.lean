import Mathlib.Data.Rat.Floor
import Mathlib.Tactic.FieldSimp
import MorphLex.Weight

/-!
Rounding against exact values. A weight stands for a rational number, and the
number written for it is the nearest whole one, a half going away from zero.
-/

namespace MorphLex

/-- The nearest whole number, a half going away from zero. -/
def roundAway (value : ℚ) : Int := if 0 ≤ value then ⌊value + 1 / 2⌋ else -⌊1 / 2 - value⌋

theorem Binary64.nearest_eq_floor (mantissa : Nat) (exponent : Int) :
    (nearestNat mantissa exponent : Int) = ⌊(mantissa : ℚ) * 2 ^ exponent + 1 / 2⌋ := by
  rw [nearestNat]
  split
  · next whole =>
    obtain ⟨power, rfl⟩ := Int.eq_ofNat_of_zero_le whole
    have value : (mantissa : ℚ) * 2 ^ (power : Int) + 1 / 2 =
      ((mantissa * 2 ^ power : Nat) : ℚ) + 1 / 2 := by
      push_cast
      rw [zpow_natCast]
    rw [value, Int.floor_natCast_add, Int.toNat_natCast]
    norm_num
  · next fraction =>
    obtain ⟨power, rfl⟩ : ∃ power : Nat, exponent = -(power : Int) := ⟨(-exponent).toNat, by omega⟩
    have value : (mantissa : ℚ) * 2 ^ (-(power : Int)) + 1 / 2 =
        ((2 * mantissa + 2 ^ power : Nat) : ℚ) / ((2 * 2 ^ power : Nat) : ℚ) := by
      push_cast
      rw [zpow_neg, zpow_natCast]
      field_simp
    rw [value, Rat.floor_natCast_div_natCast, neg_neg, Int.toNat_natCast]
    exact Int.natCast_ediv _ _

namespace Weight

/-- The value of a weight; zero for one that is not finite. -/
def exact (weight : Weight) : ℚ :=
  match Binary64.ofFloat weight with
  | .finite negative mantissa exponent =>
      (if negative then -1 else 1) * ((mantissa : ℚ) * 2 ^ exponent)
  | _ => 0

def rounded (weight : Weight) : Weight := Float.ofInt (roundAway weight.exact)

theorem round_eq_round_away {weight : Weight} {whole : Int} (rounds : round? weight = some whole) :
    whole = roundAway weight.exact := by
  rw [round?] at rounds
  rw [exact]
  cases value : Binary64.ofFloat weight with
  | nan => simp [value] at rounds
  | infinite negative => simp [value] at rounds
  | finite negative mantissa exponent =>
      rw [value] at rounds
      have whole := Option.some.inj rounds
      have nonnegative : (0 : ℚ) ≤ (mantissa : ℚ) * 2 ^ exponent :=
        mul_nonneg (Nat.cast_nonneg mantissa) (zpow_nonneg (by norm_num) exponent)
      rw [Binary64.nearest_eq_floor] at whole
      cases negative with
      | false =>
          simp only [Bool.false_eq_true, if_false, one_mul] at whole ⊢
          rw [roundAway, if_pos nonnegative, whole]
      | true =>
          simp only [if_true, neg_mul, one_mul] at whole ⊢
          rw [roundAway, ← whole]
          split
          · next zero =>
            have none : (mantissa : ℚ) * 2 ^ exponent = 0 := by linarith
            rw [none]
            norm_num
          · rw [sub_neg_eq_add, add_comm]

/-- The 16-bit number of a weight is its rounded value. -/
theorem of_int16_eq_rounded {weight : Weight} {number : Int16}
    (fits : weight.toInt16? = some number) : ofInt16 number = weight.rounded := by
  obtain ⟨whole, rounds, bounded⟩ := Option.bind_eq_some_iff.mp fits
  split at bounded
  · next inside =>
    obtain rfl := Option.some.inj bounded
    rw [ofInt16, rounded, ← round_eq_round_away rounds, Int16.toInt_ofInt_of_le]
    · omega
    · omega
  · simp at bounded

end Weight

end MorphLex
