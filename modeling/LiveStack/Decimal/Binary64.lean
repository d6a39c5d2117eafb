/-!
# Floating-point numbers as exact dyadic numbers

A `Float` is not a number, an infinity, or a sign with `significand * 2 ^ exponent`. `Dyadic`
says which, and `Dyadic.nearest` goes back from an exact quotient to the nearest `Float`. Between
the two everything is arithmetic on whole numbers.
-/

namespace LiveStack.Decimal

/-- What a `Float` stands for. -/
inductive Dyadic where
  | notANumber
  | infinite (negative : Bool)
  /-- The number `± significand * 2 ^ exponent`. -/
  | finite (negative : Bool) (significand : Nat) (exponent : Int)
deriving DecidableEq, Repr

/-- The number of bits of a stored significand. -/
def fractionBits : Nat := 52

/-- The leading bit of a significand, which is not stored unless the number is next to zero. -/
def leadingBit : Nat := Nat.pow 2 fractionBits

/-- The bit that marks a negative number. -/
def signBit : Nat := Nat.pow 2 63

/-- The exponent of the numbers next to zero. -/
def leastExponent : Int := -1074

/-- The bits of an infinity, less its sign. -/
def infinityBits : Nat := 2047 * leadingBit

namespace Dyadic

/-- Read a float from its bits. -/
def ofBits (bits : Nat) : Dyadic :=
  let negative : Bool := signBit ≤ bits
  let magnitude : Nat := bits % signBit
  let fraction : Nat := magnitude % leadingBit
  let biased : Nat := magnitude / leadingBit
  if biased = 2047 then
    if fraction = 0 then .infinite negative else .notANumber
  else if biased = 0 then .finite negative fraction leastExponent
  else .finite negative (leadingBit + fraction) (biased - 1 + leastExponent)

/-- What `x` stands for. -/
def ofFloat (x : Float) : Dyadic := ofBits x.toBits.toNat

end Dyadic

/-- The quotient of two numbers, rounded to the nearest whole number, halves to the even one. -/
def roundHalfEven (num den : Nat) : Nat :=
  let quotient := num / den
  let twice := 2 * (num % den)
  if twice < den then quotient
  else if den < twice then quotient + 1
  else quotient + quotient % 2

/-- `num / den` scaled by `2 ^ exponent` downwards, as a quotient of whole numbers. -/
def unscale (num den : Nat) (exponent : Int) : Nat × Nat :=
  match exponent with
  | .ofNat up => (num, den * Nat.pow 2 up)
  | .negSucc down => (num * Nat.pow 2 (down + 1), den)

/-- The exponent that leaves `num / den` a significand of 53 bits, or the least one. -/
def exponentFor (num den : Nat) : Int :=
  let low : Int := max leastExponent (num.log2 - den.log2 - (fractionBits + 1 : Nat))
  let (scaledNum, scaledDen) := unscale num den low
  if scaledNum / scaledDen < 2 * leadingBit then low else low + 1

/-- The bits of the float nearest to `num / den`, less its sign; ties go to the even significand.
A significand that rounds up to the next power of two carries into the exponent by itself. -/
def nearestBits (num den : Nat) : Nat :=
  let exponent := exponentFor num den
  let (scaledNum, scaledDen) := unscale num den exponent
  let significand := roundHalfEven scaledNum scaledDen
  min infinityBits <|
    if significand < leadingBit then significand
    else (exponent - leastExponent).toNat * leadingBit + significand

/-- The float nearest to `± num / den`, for `den ≠ 0`. -/
def nearest (negative : Bool) (num den : Nat) : Float :=
  Float.ofBits (.ofNat ((if negative then signBit else 0) + nearestBits num den))

/-- The infinity of the given sign. -/
def infinity (negative : Bool) : Float :=
  Float.ofBits (.ofNat ((if negative then signBit else 0) + infinityBits))

/-- The value that is not a number. -/
def notANumber : Float := 0.0 / 0.0

/-- The remainder of the truncated division of `x` by `y`, computed exactly. It has the sign of
`x`. Dividing by zero, or dividing an infinity, gives no number. -/
def remainder (x y : Float) : Float :=
  match Dyadic.ofFloat x, Dyadic.ofFloat y with
  | .finite negative a p, .finite _ b q =>
      if b = 0 then notANumber
      else
        let unit := min p q
        let rest := a * Nat.pow 2 (p - unit).toNat % (b * Nat.pow 2 (q - unit).toNat)
        match unit with
        | .ofNat up => nearest negative (rest * Nat.pow 2 up) 1
        | .negSucc down => nearest negative rest (Nat.pow 2 (down + 1))
  | .finite .., .infinite _ => x
  | _, _ => notANumber

end LiveStack.Decimal
