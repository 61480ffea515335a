/-
  BlockLang.Decimal.Shortest

  The shortest decimal that stands for a binary fraction.

  A binary fraction `m · 2 ^ q` and the two ends of the interval of reals that
  round to it are written as whole numbers of one common decimal unit, so the
  search below is exact.  Among the multiples of a power of ten that lie in the
  interval, the ones of the largest such power have the fewest digits; the one
  nearest to the fraction is taken, and of two equally near ones the larger.
-/

namespace BlockLang.Decimal

/-- A value and the ends of the interval of reals that round to it, in one unit. -/
structure Target where
  low : Nat
  value : Nat
  high : Nat
  /-- Whether the two ends themselves round to the value. -/
  closed : Bool

namespace Target

/-- Whether a whole number of units rounds to the value. -/
def contains (t : Target) (n : Nat) : Bool :=
  if t.closed then t.low ≤ n && n ≤ t.high else t.low < n && n < t.high

/-- The multiple of `step` to choose, if one of the value's two neighbours among
    the multiples is contained. -/
def nearestMultiple (t : Target) (step : Nat) : Option Nat :=
  let below := t.value / step * step
  let above := below + step
  match t.contains below, t.contains above with
  | true, true => some (if t.value - below < above - t.value then below else above)
  | true, false => some below
  | false, true => some above
  | false, false => none

/-- The contained multiple of the largest power of ten below `10 ^ digits`. -/
def shortestBelow (t : Target) : Nat → Nat
  | 0 => t.value
  | digits + 1 => (t.nearestMultiple (Nat.pow 10 digits)).getD (t.shortestBelow digits)

/-- The contained number of units with the fewest digits before its trailing zeros. -/
def shortest (t : Target) : Nat :=
  t.shortestBelow (Nat.toDigits 10 t.value).length

end Target

/-- The number of decimal places in which every quarter of `2 ^ exponent` is whole. -/
def places (exponent : Int) : Nat := (2 - exponent).toNat

/-- The target of `mantissa · 2 ^ exponent` in units of `10 ^ -places`.

    The gap to the next larger value is `2 ^ exponent`.  Below a power of two the
    gap to the next smaller value is half of that; `narrow` says so.  An end
    rounds to the value exactly when the mantissa is even. -/
def target (mantissa : Nat) (exponent : Int) (narrow : Bool) : Target :=
  let scale :=
    if exponent ≤ 2 then Nat.pow 5 (2 - exponent).toNat else Nat.pow 2 (exponent - 2).toNat
  { low := (4 * mantissa - if narrow then 1 else 2) * scale
    value := 4 * mantissa * scale
    high := (4 * mantissa + 2) * scale
    closed := mantissa % 2 == 0 }

end BlockLang.Decimal
