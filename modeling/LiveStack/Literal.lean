import LiveStack.Code
import LiveStack.Decimal.Reading
import LiveStack.Text.Quoted

/-!
# Literals

A token that is not a word may be a literal: `true`, `false`, a quoted string, or a number. An
integer is written in base ten, or in base sixteen after `0x`, or in base two after `0b`. A number
with a point or an exponent is a float. Underscores may stand anywhere behind the first character
of a number and mean nothing. An integer that does not fit in 64 bits is no literal.
-/

namespace LiveStack.Literal

/-- An integer value, if the number fits in 64 bits. -/
def ofInt? (number : Int) : Option Value :=
  if Int64.minValue.toInt ≤ number ∧ number ≤ Int64.maxValue.toInt then
    some (.int (.ofInt number))
  else none

/-- Whether a number can begin with `c`. -/
def startsNumber (c : Char) : Bool :=
  ('0' ≤ c && c ≤ '9') || c == '-' || c == '.'

/-- Whether `c` makes a number a float. -/
def marksFloat (c : Char) : Bool :=
  c == '.' || c == 'e' || c == 'E'

/-- The characters without underscores. -/
def dropUnderscores (chars : List Char) : List Char :=
  chars.filter (· ≠ '_')

/-- Read an integer of the given base. -/
def readInt? (base : Nat) (chars : List Char) : Option Value := do
  ofInt? (← Decimal.readInt? base (dropUnderscores chars))

/-- Read a number. -/
def readNumber? (chars : List Char) : Option Value :=
  match chars with
  | '0' :: 'x' :: digits => readInt? 16 digits
  | '0' :: 'b' :: digits => readInt? 2 digits
  | first :: _ =>
      if !startsNumber first then none
      else if chars.any marksFloat then
        (Decimal.readFloat? (dropUnderscores chars)).map .float
      else readInt? 10 chars
  | [] => none

/-- The value of a token read as a literal, if it is one. -/
def read? (text : String) : Option Value :=
  if text = "true" then some (.bool true)
  else if text = "false" then some (.bool false)
  else match Text.Quoted.decode? text with
    | some body => some (.string body)
    | none => readNumber? text.toList

end LiveStack.Literal
