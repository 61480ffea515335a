/-
  BlockLang.Decimal.FloatText

  The text of a floating-point number, and the number of a decimal text.

  Numbers are written with the fewest digits that read back as the same number,
  always in positional notation and always with at least one fractional digit, so
  that the text of a finite number reads as a float literal again.
-/
import BlockLang.Decimal.Shortest

namespace BlockLang.Decimal

/-- The digits of `units · 10 ^ -places` behind the point, without trailing zeros
    but never none. -/
def fractionDigits (units places : Nat) : List Char :=
  let digits := Nat.toDigits 10 (units % Nat.pow 10 places)
  let padded := List.replicate (places - digits.length) '0' ++ digits
  match (padded.reverse.dropWhile (· == '0')).reverse with
  | [] => ['0']
  | kept => kept

/-- The positional text of `units · 10 ^ -places`. -/
def positional (units places : Nat) : String :=
  String.ofList (Nat.toDigits 10 (units / Nat.pow 10 places) ++ '.' :: fractionDigits units places)

/-- The text of the finite number with these exponent and fraction fields. -/
def magnitudeText (exponentField fraction : Nat) : String :=
  if exponentField = 0 then
    if fraction = 0 then "0.0"
    else positional (target fraction (-1074) false).shortest (places (-1074))
  else
    let exponent : Int := exponentField - 1075
    let narrow := fraction == 0 && exponentField != 1
    positional (target (Nat.pow 2 52 + fraction) exponent narrow).shortest (places exponent)

/-- The text of a floating-point number. -/
def floatText (x : Float) : String :=
  let bits := x.toBits.toNat
  let sign := if bits / Nat.pow 2 63 = 1 then "-" else ""
  let exponentField := bits / Nat.pow 2 52 % Nat.pow 2 11
  let fraction := bits % Nat.pow 2 52
  if exponentField = 2047 then
    if fraction = 0 then sign ++ "inf" else "NaN"
  else sign ++ magnitudeText exponentField fraction

/-- The whole number that a list of decimal digits writes. -/
def digitsValue (digits : List Char) : Nat :=
  digits.foldl (fun n c => 10 * n + (c.toNat - '0'.toNat)) 0

/-- The floating-point number nearest to `whole.fraction`. -/
def nearestFloat (whole fraction : List Char) : Float :=
  Float.ofScientific (digitsValue (whole ++ fraction)) true fraction.length

end BlockLang.Decimal
