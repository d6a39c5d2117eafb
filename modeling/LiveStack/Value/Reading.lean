import LiveStack.Code

/-!
# Values read as truths and numbers

Every value can be read as a truth, and the values that count as numbers (integers, floats and
truths) as an integer or as a float.
-/

namespace LiveStack.Value

/-- Integers, floats and truths count as numbers. -/
def isNumeric : Value → Bool
  | .int _ | .float _ | .bool _ => true
  | _ => false

/-- Integers, floats and strings compare by their text. -/
def isTextual : Value → Bool
  | .int _ | .float _ | .string _ => true
  | _ => false

/-- Whether the value is an integer. -/
def isInt : Value → Bool
  | .int _ => true
  | _ => false

/-- Whether the value is a float. -/
def isFloat : Value → Bool
  | .float _ => true
  | _ => false

/-- Whether the value is a string. -/
def isString : Value → Bool
  | .string _ => true
  | _ => false

/-- The value as a truth: zero, false and the empty string are false, all else is true. -/
def truth : Value → Bool
  | .int number => number != 0
  | .float number => number != 0.0
  | .bool truth => truth
  | .string text => !text.isEmpty
  | .list _ => true

/-- The value as an integer. A float is cut off toward zero and held within the integers; what is
no number reads as zero. -/
def toInt : Value → Int64
  | .int number => number
  | .float number => number.toInt64
  | .bool truth => if truth then 1 else 0
  | _ => 0

/-- The value as a float; what is no number reads as zero. -/
def toFloat : Value → Float
  | .int number => number.toFloat
  | .float number => number
  | .bool truth => if truth then 1.0 else 0.0
  | _ => 0.0

end LiveStack.Value
