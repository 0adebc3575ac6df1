import MorphLex.Number.Power

/-!
Floating-point numbers as exact values. A finite number is a sign, a whole
mantissa and a power of two; every rule on the digits or the rounding of a
number is stated on these three.
-/

namespace MorphLex

/-- The value that a binary64 bit pattern stands for: a finite one is
mantissa · 2 ^ exponent, taken negatively when `negative` is set. -/
inductive Binary64 where
  | nan
  | infinite (negative : Bool)
  | finite (negative : Bool) (mantissa : Nat) (exponent : Int)
deriving DecidableEq

namespace Binary64

open scoped Power

/-- Splits the pattern into a sign bit, 11 exponent bits and 52 fraction bits. -/
def ofFloat (number : Float) : Binary64 :=
  let bits := number.toBits.toNat
  let negative := bits / 2 ^ (63 : Nat) == 1
  let scale : Nat := bits / 2 ^ (52 : Nat) % 2 ^ (11 : Nat)
  let fraction : Nat := bits % 2 ^ (52 : Nat)
  if scale = 2047 then
    if fraction = 0 then .infinite negative else .nan
  else if scale = 0 then .finite negative fraction (-1074)
  else .finite negative (fraction + 2 ^ (52 : Nat)) ((scale : Int) - 1075)

/-- The nearest whole number to mantissa · 2 ^ exponent, a half going up. -/
def nearestNat (mantissa : Nat) (exponent : Int) : Nat :=
  if 0 ≤ exponent then mantissa * 2 ^ exponent.toNat
  else
    let unit := 2 ^ (-exponent).toNat
    (2 * mantissa + unit) / (2 * unit)

end Binary64

end MorphLex
