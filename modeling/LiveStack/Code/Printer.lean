import LiveStack.Code
import LiveStack.Decimal.Shortest
import LiveStack.Text.Quoted

/-!
# Source text of code and values

Code is written as its tokens, one space between two. A list is written in brackets with a space
inside each, so the empty list is `[ ]`. A value is shown raw, or written so that it reads back:
the two differ for strings only.
-/

namespace LiveStack

mutual

/-- Write an element behind `front`. -/
def Element.write (front : String) : Element → String
  | .word word => front ++ word.name
  | .literal text _ => front ++ text
  | .quote code => Code.writeItems (front ++ "[ ") code ++ "]"
  | .unknown text => front ++ text

/-- Write the items of a list behind `front`, with a space behind each. -/
def Code.writeItems (front : String) : List Instruction → String
  | [] => front
  | ⟨_, element⟩ :: rest => Code.writeItems (element.write front ++ " ") rest

end

/-- The source text of an element. -/
def Element.render (element : Element) : String := element.write ""

/-- The source text of a list. -/
def Code.renderList (code : Code) : String := (Element.quote code).render

/-- The source text of code: its elements, one space between two. -/
def Code.render (code : Code) : String :=
  " ".intercalate (code.map fun instruction => instruction.element.render)

namespace Value

/-- The value as it is shown to the user. -/
def render : Value → String
  | .int number => toString number.toInt
  | .float number => Decimal.text number
  | .bool truth => if truth then "true" else "false"
  | .string text => text
  | .list code => Code.renderList code

/-- The value as source text: strings are quoted. -/
def source : Value → String
  | .string text => Text.Quoted.encode text
  | value => value.render

/-- The name of the value's type. -/
def typeName : Value → String
  | .int _ => "int"
  | .float _ => "float"
  | .bool _ => "bool"
  | .string _ => "string"
  | .list _ => "list"

/-- The type and the source text, for error messages. -/
def describe (value : Value) : String := s!"{value.typeName} {value.source}"

end Value

namespace Element

/-- The element that pushes `value`. -/
def ofValue : Value → Element
  | .list code => .quote code
  | value => .literal value.source value

/-- The value the element pushes, if it is data. -/
def value? : Element → Option Value
  | .literal _ value => some value
  | .quote code => some (.list code)
  | .word _ => none
  | .unknown _ => none

end Element

end LiveStack
