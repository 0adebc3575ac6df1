import MorphLex.Number.Binary64

/-!
The shortest decimal that reads back. Decimal grids are tried from coarse to
fine, and the first grid with a point in the interval of reals that round to
the number supplies the digits; on that grid the nearest point is taken.
-/

namespace MorphLex

structure Decimal where
  digits : Nat
  exponent : Int
deriving DecidableEq

namespace Decimal

open scoped Power

/-- The fraction mantissa · 2 ^ exponent ÷ 10 ^ grid as numerator and
denominator. -/
def scaled (mantissa : Nat) (exponent grid : Int) : Nat × Nat :=
  (mantissa * 2 ^ exponent.toNat * 10 ^ (-grid).toNat, 2 ^ (-exponent).toNat * 10 ^ grid.toNat)

/-- Whether digits · 10 ^ grid rounds to mantissa · 2 ^ exponent. Half the
distance to the next number above, and to the next below, is a half unit of
the last place; below a power of two it is a quarter. The ends of the interval
belong to an even mantissa. -/
def readsBack (mantissa : Nat) (exponent grid : Int) (digits : Nat) : Bool :=
  let below := if mantissa = 2 ^ (52 : Nat) ∧ -1074 < exponent then 1 else 2
  let (low, unit) := scaled (4 * mantissa - below) (exponent - 2) grid
  let (high, _) := scaled (4 * mantissa + 2) (exponent - 2) grid
  if mantissa % 2 = 0 then low ≤ digits * unit && digits * unit ≤ high
  else low < digits * unit && digits * unit < high

/-- The point of the grid nearest to the number among those that read back;
of two equally near points the upper one. -/
def onGrid (mantissa : Nat) (exponent grid : Int) : Option Nat :=
  let (value, unit) := scaled mantissa exponent grid
  let lower := value / unit
  let upper := lower + 1
  let lowerFits := 0 < lower && readsBack mantissa exponent grid lower
  let upperFits := readsBack mantissa exponent grid upper
  if lowerFits && upperFits then
    if value - lower * unit < upper * unit - value then some lower else some upper
  else if lowerFits then some lower
  else if upperFits then some upper
  else none

/-- Tries `count` grids, each ten times finer than the one before. -/
def firstGrid (mantissa : Nat) (exponent : Int) : Nat → Int → Option Decimal
  | 0, _ => none
  | count + 1, grid =>
      match onGrid mantissa exponent grid with
      | some digits => some ⟨digits, grid⟩
      | none => firstGrid mantissa exponent count (grid - 1)

/-- A grid coarser than the number: 30103 / 100000 is just above log 2. -/
def coarsestGrid (mantissa : Nat) (exponent : Int) : Int :=
  (Nat.log2 mantissa + exponent + 1) * 30103 / 100000 + 2

/-- The shortest decimal that reads back as mantissa · 2 ^ exponent. Seventeen
digits always suffice, so 24 grids below the coarsest do. -/
def shortest (mantissa : Nat) (exponent : Int) : Decimal :=
  if mantissa = 0 then ⟨0, 0⟩
  else (firstGrid mantissa exponent 24 (coarsestGrid mantissa exponent)).getD ⟨0, 0⟩

/-- Positional text: whole numbers without a point, no exponent, and no zero at
the end of a fraction. -/
def text (number : Decimal) : String :=
  if 0 ≤ number.exponent then
    toString (number.digits * 10 ^ number.exponent.toNat)
  else
    let unit := 10 ^ (-number.exponent).toNat
    let fraction := (Nat.toDigits 10 (unit + number.digits % unit)).tail
    let kept := (fraction.reverse.dropWhile (· == '0')).reverse
    let whole := toString (number.digits / unit)
    if kept.isEmpty then whole else whole ++ "." ++ String.ofList kept

end Decimal

end MorphLex
