import LiveStack.Fault
import LiveStack.Literal
import LiveStack.Value.Comparison

/-!
# The operations

Every operation is a function of the values it takes, given in the order they were pushed. It
gives the values to push, the last of them to end on top, or the cause of its failure.

Arithmetic on integers is exact: a result that does not fit in 64 bits is a failure, and two
integers whose quotient is not whole divide as floats. If either operand is a float, both are.

Lists and strings may be of any length, with one exception. The list of a range is made all at
once, and where its length is more than any vector can have, the run panics. Whether the machine has
the memory for a shorter list is not asked here.
-/

namespace LiveStack

namespace Value

/-- The integer, or a type error. -/
def asInt : Value → Except Cause Int64
  | .int number => .ok number
  | value => .error (.typeMismatch "int" value.describe)

/-- The string, or a type error. -/
def asString : Value → Except Cause String
  | .string text => .ok text
  | value => .error (.typeMismatch "string" value.describe)

/-- The list, or a type error. -/
def asList : Value → Except Cause Code
  | .list code => .ok code
  | value => .error (.typeMismatch "list" value.describe)

end Value

/-- The value of a list item. Code can be run from a list but not taken out as data. -/
def Instruction.value (item : Instruction) : Except Cause Value :=
  match item.element.value? with
  | some value => .ok value
  | none => .error (.typeMismatch "list of values" s!"word {item.element.render}")

namespace Operation

/-- The failure of an integer result that does not fit. -/
def overflow (a b : Value) : Cause :=
  .plain s!"Integer overflow in {a.render} and {b.render}."

/-- The exact result of integer arithmetic on `a` and `b`, if it fits. -/
def exact (a b : Value) (result : Int) : Except Cause Value :=
  match Literal.ofInt? result with
  | some value => .ok value
  | none => .error (overflow a b)

/-- Arithmetic on two numbers: on floats if either is one, else exactly on integers. -/
def arithmetic (a b : Value) (onFloats : Float → Float → Float)
    (onInts : Int → Int → Except Cause Value) : Except Cause Value :=
  if !a.isNumeric then .error (.typeMismatch "number" a.describe)
  else if !b.isNumeric then .error (.typeMismatch "number" b.describe)
  else if a.isFloat || b.isFloat then .ok (.float (onFloats a.toFloat b.toFloat))
  else onInts a.toInt.toInt b.toInt.toInt

/-- The sum of two numbers, or two texts joined if either is a string. -/
def sum (a b : Value) : Except Cause Value :=
  if a.isString || b.isString then .ok (.string (a.render ++ b.render))
  else arithmetic a b (· + ·) fun x y => exact a b (x + y)

/-- The quotient of two numbers. -/
def quotient (a b : Value) : Except Cause Value :=
  arithmetic a b (· / ·) fun x y =>
    if y = 0 then .error .divisionByZero
    else if x.tmod y = 0 then exact a b (x.tdiv y)
    else .ok (.float (a.toFloat / b.toFloat))

/-- The remainder of the truncated division of two numbers. It fails where the quotient of that
division does not fit. -/
def remainder (a b : Value) : Except Cause Value :=
  arithmetic a b Decimal.remainder fun x y =>
    if y = 0 then .error .divisionByZero
    else do
      let _ ← exact a b (x.tdiv y)
      exact a b (x.tmod y)

/-- Whether the order of two values passes a test. A float that is not a number passes none. -/
def ordered (a b : Value) (test : Ordering → Bool) : Except Cause Value :=
  match a.compare? b with
  | some order => .ok (.bool (test order))
  | none =>
      if a.isNumeric && b.isNumeric then .ok (.bool false)
      else .error (.typeMismatch "two numbers or two strings" s!"{a.describe} and {b.describe}")

/-- The number of items of a list, or of characters of a string. -/
def size (value : Value) : Except Cause Value :=
  match value with
  | .list code => .ok (.int (.ofNat code.length))
  | .string text => .ok (.int (.ofNat text.length))
  | _ => .error (.typeMismatch "list or string" value.describe)

/-- A list with a value added to its front. -/
def prepend (value list : Value) : Except Cause Value := do
  let code ← list.asList
  return .list (.made (.ofValue value) :: code)

/-- The first value of a list, and the rest of the list. -/
def uncons (list : Value) : Except Cause (List Value) := do
  match ← list.asList with
  | [] => throw (.typeMismatch "non-empty list" "empty list")
  | head :: tail => return [← head.value, .list tail]

/-- The integers from `low` up to and including `high`. -/
def integers (low high : Int) : List Int :=
  (List.range (high + 1 - low).toNat).map fun (offset : Nat) => low + offset

/-- The list of the integers from `low` up to and including `high`. -/
def counting (low high : Int) : Code :=
  (integers low high).map fun number => .made (.ofValue (.int (.ofInt number)))

/-- The list of the integers from `low` up to and including `high`, if there is room for it. -/
def counted (low high : Int) : Except Cause Value :=
  if (high + 1 - low).toNat ≤ Code.capacity then .ok (.list (counting low high))
  else .error .capacityOverflow

/-- The list of the integers from one integer up to and including another. -/
def span (high low : Value) : Except Cause Value := do
  let high ← high.asInt
  let low ← low.asInt
  counted low.toInt high.toInt

/-- The result of one value. -/
def one (result : Except Cause Value) : Except Cause (List Value) :=
  result.map ([·])

/-- Apply an operation to the values it takes. -/
def apply : Operation → List Value → Except Cause (List Value)
  | .dup, [a] => .ok [a, a]
  | .drop, [_] => .ok []
  | .choose, [condition, whenTrue, whenFalse] =>
      .ok [if condition.truth then whenTrue else whenFalse]
  | .add, [a, b] => one (sum a b)
  | .subtract, [a, b] => one (arithmetic a b (· - ·) fun x y => exact a b (x - y))
  | .multiply, [a, b] => one (arithmetic a b (· * ·) fun x y => exact a b (x * y))
  | .divide, [a, b] => one (quotient a b)
  | .modulo, [a, b] => one (remainder a b)
  | .equal, [a, b] => .ok [.bool (a.same b)]
  | .less, [a, b] => one (ordered a b (· == .lt))
  | .greater, [a, b] => one (ordered a b (· == .gt))
  | .lessEqual, [a, b] => one (ordered a b (· != .gt))
  | .greaterEqual, [a, b] => one (ordered a b (· != .lt))
  | .not, [a] => .ok [.bool (!a.truth)]
  | .and, [a, b] => .ok [.bool (a.truth && b.truth)]
  | .or, [a, b] => .ok [.bool (a.truth || b.truth)]
  | .xor, [a, b] => .ok [.bool (a.truth != b.truth)]
  | .length, [a] => one (size a)
  | .cons, [a, b] => one (prepend a b)
  | .snoc, [a] => uncons a
  | .range, [a, b] => one (span a b)
  | op, values => .error (.stackUnderflow op.info.name op.info.arity values.length)

end Operation

end LiveStack
