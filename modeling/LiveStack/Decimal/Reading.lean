import LiveStack.Decimal.Binary64
import LiveStack.Decimal.Digits

/-!
# Reading numbers

A whole number is an optional sign and one or more digits of its base. A float is an optional
sign, digits with an optional point among them, and an optional exponent; or, in letters of either
case, an infinity or the value that is not a number. A decimal is read exactly and rounded once, to
the nearest float, but for an exponent that has reached `exponentLimit`, whose further digits count
no more.
-/

namespace LiveStack.Decimal

/-- Take a leading sign off; says whether it is a minus. -/
def splitSign : List Char → Bool × List Char
  | '-' :: rest => (true, rest)
  | '+' :: rest => (false, rest)
  | rest => (false, rest)

/-- Put a sign before a number. -/
def withSign (negative : Bool) (magnitude : Nat) : Int :=
  if negative then -magnitude else magnitude

/-- Read an optional sign and one or more digits. -/
def readInt? (base : Nat) (chars : List Char) : Option Int :=
  let (negative, digits) := splitSign chars
  (readNat? base digits).map (withSign negative)

/-- The exponent from which the digits that follow count no more. -/
def exponentLimit : Nat := 65536

/-- Put a digit after an exponent. One that has reached `exponentLimit` stays as it is, so that it
never has more than one place beyond the limit's. -/
def extendExponent (exponent digit : Nat) : Nat :=
  if exponent < exponentLimit then exponent * 10 + digit else exponent

/-- Read the exponent of a float: an optional sign and one or more digits. -/
def readExponent? (chars : List Char) : Option Int := do
  let (negative, digits) := splitSign chars
  if digits.isEmpty then none
  else
    let values ← digits.mapM (digitOf? 10)
    return withSign negative (values.foldl extendExponent 0)

/-- The float nearest to `± digits * 10 ^ exponent`. As ten is more than `2 ^ 3`, the place of the
leading bit tells what is at least `2 ^ 1024`, and so infinite, and what is less than half of the
least positive float, which is `2 ^ -1074`. Neither needs the power. -/
def ofScientific (negative : Bool) (digits : Nat) (exponent : Int) : Float :=
  if digits = 0 then nearest negative 0 1
  else
    match exponent with
    | .ofNat up =>
        if 1024 ≤ digits.log2 + 3 * up then infinity negative
        else nearest negative (digits * Nat.pow 10 up) 1
    | .negSucc down =>
        if digits.log2 + 1075 < 3 * (down + 1) then nearest negative 0 1
        else nearest negative digits (Nat.pow 10 (down + 1))

/-- Split before the first character that `stops`, which is dropped; `none` for the second part
if there is no such character. -/
def splitOnce (stops : Char → Bool) (chars : List Char) : List Char × Option (List Char) :=
  match chars.dropWhile (!stops ·) with
  | [] => (chars, none)
  | _ :: rest => (chars.takeWhile (!stops ·), some rest)

/-- Read a decimal without its sign. -/
def readMagnitude? (negative : Bool) (chars : List Char) : Option Float := do
  let (mantissa, power) := splitOnce (fun c => c == 'e' || c == 'E') chars
  let (whole, fraction) := splitOnce (· == '.') mantissa
  let fraction := fraction.getD []
  let digits ← readNat? 10 (whole ++ fraction)
  let power ← match power with
    | none => some 0
    | some written => readExponent? written
  return ofScientific negative digits (power - fraction.length)

/-- Read a float. -/
def readFloat? (chars : List Char) : Option Float :=
  let (negative, unsigned) := splitSign chars
  let letters := unsigned.map Char.toLower
  if letters = "inf".toList || letters = "infinity".toList then some (infinity negative)
  else if letters = "nan".toList then some notANumber
  else readMagnitude? negative unsigned

end LiveStack.Decimal
