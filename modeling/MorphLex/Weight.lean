import MorphLex.Number.Shortest
import MorphLex.Number.Numeral

/-!
Weights of arcs and final states: floating-point numbers of the tropical
semiring, where weights add along a path and the smallest path wins.
-/

namespace MorphLex

abbrev Weight := Float

namespace Weight

def text (weight : Weight) : String :=
  match Binary64.ofFloat weight with
  | .nan => "NaN"
  | .infinite negative => if negative then "-inf" else "inf"
  | .finite negative mantissa exponent =>
      (if negative then "-" else "") ++ (Decimal.shortest mantissa exponent).text

/-- The bit pattern of the weight, with negative zero read as zero. Two states
or arcs can only be merged when these agree. -/
def key (weight : Weight) : UInt64 := (weight + 0.0).toBits

def ofKey (key : UInt64) : Weight := Float.ofBits key

/-- The nearest whole number, a half going away from zero; none for a weight
that is not finite. -/
def round? (weight : Weight) : Option Int :=
  match Binary64.ofFloat weight with
  | .finite negative mantissa exponent =>
      let magnitude : Int := Binary64.nearestNat mantissa exponent
      some (if negative then -magnitude else magnitude)
  | _ => none

/-- The rounded weight, if it lies between -32768 and 32767. -/
def toInt16? (weight : Weight) : Option Int16 :=
  (round? weight).bind fun rounded =>
    if -32768 ≤ rounded ∧ rounded ≤ 32767 then some (Int16.ofInt rounded) else none

def ofInt16 (number : Int16) : Weight := Float.ofInt number.toInt

end Weight

end MorphLex
