import LiveStack.Code.Printer
import LiveStack.Value.Reading

/-!
# Equality and order of values

Numbers are equal if they have the same value, whatever their types. A number and a string are
equal if they have the same text. Lists are equal element by element: words by name, literals by
text and value; where code was read from does not matter. Order is defined between numbers and
between strings only, and a float that is not a number has no order.
-/

namespace LiveStack

namespace Value

/-- Equality of two numbers: as floats if either is one, else as integers. -/
def sameNumber (a b : Value) : Bool :=
  if a.isFloat || b.isFloat then a.toFloat == b.toFloat
  else if a.isInt || b.isInt then a.toInt == b.toInt
  else a.truth == b.truth

/-- Equality of two values that are not both lists. -/
def sameAtom (a b : Value) : Bool :=
  if a.isNumeric && b.isNumeric then sameNumber a b
  else if a.isTextual && b.isTextual then a.render == b.render
  else false

end Value

mutual

/-- Equality of values, as the language sees it. -/
def Value.same : Value → Value → Bool
  | .list a, .list b => Code.same a b
  | a, b => a.sameAtom b

/-- Two elements are the same if they have the same source text and the same meaning. -/
def Element.same : Element → Element → Bool
  | .word a, .word b => a.name == b.name
  | .literal text a, .literal text' b => text == text' && a.same b
  | .quote a, .quote b => Code.same a b
  | .unknown text, .unknown text' => text == text'
  | _, _ => false

/-- Equality of lists, element by element. -/
def Code.same : List Instruction → List Instruction → Bool
  | [], [] => true
  | ⟨_, a⟩ :: as, ⟨_, b⟩ :: bs => a.same b && Code.same as bs
  | _, _ => false

end

namespace Value

/-- The order of two floats, if they have one. -/
def compareFloats? (a b : Float) : Option Ordering :=
  if a < b then some .lt
  else if a == b then some .eq
  else if b < a then some .gt
  else none

/-- The order of two values, if they have one. -/
def compare? (a b : Value) : Option Ordering :=
  if a.isNumeric && b.isNumeric then
    if a.isFloat || b.isFloat then compareFloats? a.toFloat b.toFloat
    else some (compare a.toInt b.toInt)
  else
    match a, b with
    | .string a, .string b => some (compare a b)
    | _, _ => none

end Value

end LiveStack
