import LiveStack.Decimal.Binary64

/-!
# The decimal text of a float

A whole float is written out in full, however large, with one zero behind the point. Any other
float is written with the fewest digits that still read back as it, and of those the digits
nearest to it. Neither form has an exponent.
-/

namespace LiveStack.Decimal

/-- The reals that round to one float, measured with the float itself as quotients over a common
denominator. The ends belong to the interval if `closed`. -/
structure Interval where
  low : Nat
  value : Nat
  high : Nat
  den : Nat
  closed : Bool
deriving DecidableEq, Repr

namespace Interval

/-- The interval of `significand * 2 ^ exponent`. Its ends lie half way to the neighbours; just
below a power of two the neighbours are half as far apart as above it. -/
def around (significand : Nat) (exponent : Int) : Interval :=
  let narrow := significand = leadingBit ∧ leastExponent < exponent
  let (scale, den) := unscale 1 4 (-exponent)
  { low := (4 * significand - if narrow then 1 else 2) * scale
    value := 4 * significand * scale
    high := (4 * significand + 2) * scale
    den := den
    closed := significand % 2 = 0 }

/-- Whether `num / den` lies in the interval. -/
def contains (interval : Interval) (num den : Nat) : Bool :=
  let below := interval.low * den
  let here := num * interval.den
  let above := interval.high * den
  if interval.closed then below ≤ here && here ≤ above else below < here && here < above

/-- Of the two points of the grid of step `10 ^ exponent` next to the value, the one in the
interval; if both are, the nearer, and if both are equally near, the upper. Points are counted in
steps of the grid. -/
def gridPoint? (interval : Interval) (exponent : Int) : Option Nat :=
  let up := Nat.pow 10 exponent.toNat
  let down := Nat.pow 10 (-exponent).toNat
  let scaled := interval.value * down
  let step := interval.den * up
  let floor := scaled / step
  let hit (point : Nat) : Bool := interval.contains (point * up) down
  let upperNearer : Bool := step ≤ 2 * (scaled % step)
  if hit floor && !(hit (floor + 1) && upperNearer) then some floor
  else if hit (floor + 1) then some (floor + 1)
  else none

end Interval

/-- The number of decimal digits of `n`. -/
def digitCount (n : Nat) : Nat := (Nat.toDigits 10 n).length

/-- The place of the leading digit of `num / den`: the greatest `p` with `10 ^ p ≤ num / den`. -/
def leadingPlace (num den : Nat) : Int :=
  if den ≤ num then digitCount (num / den) - 1
  else -(digitCount ((den - 1) / num) : Int)

/-- Seventeen digits tell any two floats apart. -/
def maxDigits : Nat := 17

/-- The fewest digits that read back as `significand * 2 ^ exponent`, as digits and the power of
ten of the last one. The coarsest grid tried is the one above the leading digit, where a value may
round up to a power of ten. -/
def shortest (significand : Nat) (exponent : Int) : Nat × Int :=
  let interval := Interval.around significand exponent
  let place := leadingPlace interval.value interval.den
  let found := (List.range (maxDigits + 1)).findSome? fun (finer : Nat) =>
    let step := place + 1 - finer
    (interval.gridPoint? step).map (·, step)
  found.getD (significand * Nat.pow 2 exponent.toNat, 0)

/-- The digits of `digits * 10 ^ (-places)`, with a point `places` from the right. -/
def positional (digits places : Nat) : String :=
  let written := Nat.toDigits 10 digits
  let padded := List.replicate (places + 1 - written.length) '0' ++ written
  let whole := padded.take (padded.length - places)
  let fraction := padded.drop (padded.length - places)
  String.ofList (if fraction.isEmpty then whole else whole ++ '.' :: fraction)

/-- The text of `significand * 2 ^ exponent`, sign aside. -/
def finiteText (significand : Nat) (exponent : Int) : String :=
  let down := Nat.pow 2 (-exponent).toNat
  if significand % down = 0 then
    positional (significand / down * Nat.pow 2 exponent.toNat * 10) 1
  else
    let (digits, step) := shortest significand exponent
    positional (digits * Nat.pow 10 step.toNat) (-step).toNat

/-- The text of a float. -/
def text (x : Float) : String :=
  match Dyadic.ofFloat x with
  | .notANumber => "NaN"
  | .infinite negative => if negative then "-inf" else "inf"
  | .finite negative significand exponent =>
      (if negative then "-" else "") ++ finiteText significand exponent

end LiveStack.Decimal
