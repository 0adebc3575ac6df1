/-!
Reading numerals. A numeral is an optional sign followed by `inf`, `infinity`
or `nan` in any case, or by decimal digits with at most one point, at least one
digit, and an optional exponent. No blank and no separator belongs to it.
-/

namespace MorphLex.Numeral

def value (digits : List Char) : Nat :=
  digits.foldl (fun total digit => 10 * total + (digit.toNat - '0'.toNat)) 0

/-- An optional sign; the first component is set for a minus. -/
def sign : List Char → Bool × List Char
  | '-' :: rest => (true, rest)
  | '+' :: rest => (false, rest)
  | rest => (false, rest)

/-- The exponent that ends a numeral: nothing at all, or `e`, an optional sign
and at least one digit. -/
def exponent? : List Char → Option Int
  | [] => some 0
  | mark :: rest =>
      if mark == 'e' || mark == 'E' then
        let (negative, digits) := sign rest
        if digits.isEmpty || !digits.all Char.isDigit then none
        else some (if negative then -(value digits : Int) else value digits)
      else none

/-- The float nearest to mantissa · 10 ^ exponent. Far outside the range of
finite numbers the answer does not depend on the digits, and no power of ten
is formed. -/
def nearest (mantissa : Nat) (exponent : Int) : Float :=
  let magnitude := (Nat.log2 mantissa : Int) * 30103 / 100000 + exponent
  if mantissa = 0 || magnitude < -400 then 0
  else if 400 < magnitude then 1.0 / 0.0
  else if exponent < 0 then Float.ofScientific mantissa true (-exponent).toNat
  else Float.ofScientific mantissa false exponent.toNat

def magnitude? (characters : List Char) : Option Float :=
  let folded := String.ofList (characters.map Char.toLower)
  if folded == "inf" || folded == "infinity" then some (1.0 / 0.0)
  else if folded == "nan" then some (0.0 / 0.0)
  else
    let whole := characters.takeWhile Char.isDigit
    let afterWhole := characters.dropWhile Char.isDigit
    let afterPoint := match afterWhole with
      | '.' :: rest => rest
      | _ => []
    let hasPoint := afterWhole.head? == some '.'
    let fraction := afterPoint.takeWhile Char.isDigit
    let rest := if hasPoint then afterPoint.dropWhile Char.isDigit else afterWhole
    if whole.isEmpty && fraction.isEmpty then none
    else (exponent? rest).map fun power =>
      nearest (value (whole ++ fraction)) (power - fraction.length)

/-- The float that a numeral stands for, correctly rounded. -/
def float? (characters : List Char) : Option Float :=
  let (negative, rest) := sign characters
  (magnitude? rest).map fun number => if negative then -number else number

end MorphLex.Numeral
