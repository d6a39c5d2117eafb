import LiveStack.Location
import LiveStack.Primitive

/-!
# Code and values

Code is a list of instructions, and a list of instructions is also a value: a quotation. Words are
bound when code is read, so an instruction that calls a word holds the word itself, with its body.
Defining the name anew later changes nothing in code that has been read.
-/

namespace LiveStack

mutual

/-- The data that lives on the stack. -/
inductive Value where
  | int (number : Int64)
  | float (number : Float)
  | bool (truth : Bool)
  | string (text : String)
  | list (code : List Instruction)

/-- The meaning of one token, or of one bracketed list. -/
inductive Element where
  /-- Call a word. -/
  | word (word : Word)
  /-- Push a value; `text` is how it was written. -/
  | literal (text : String) (value : Value)
  /-- Push a list. -/
  | quote (code : List Instruction)
  /-- A token that meant nothing when it was read. It does nothing. -/
  | unknown (text : String)

/-- An element, and where it was read, if it was read from a text. -/
structure Instruction where
  location : Option Location
  element : Element

/-- What a word does. -/
inductive Handler where
  | primitive (primitive : Primitive)
  /-- Run the body in place of the word. -/
  | secondary (body : List Instruction)

/-- A name with what it does. -/
structure Word where
  name : String
  handler : Handler

end

/-- A list of instructions. -/
abbrev Code := List Instruction

namespace Code

/-- The bytes of an instruction in a vector: 40 for its place and 56 for its element. -/
def instructionBytes : Nat := 96

/-- The most instructions that a vector has room for. Its bytes are counted by a signed word. -/
def capacity : Nat := (Nat.pow 2 63 - 1) / instructionBytes

end Code

instance : Inhabited Value := ⟨.bool false⟩

/-- The two kinds of words, as the dictionary and the editor show them. -/
inductive WordKind where
  | primitive
  | secondary
deriving DecidableEq, Repr

/-- The name of the kind. -/
def WordKind.render : WordKind → String
  | .primitive => "primitive"
  | .secondary => "secondary"

/-- Which kind of word does this. -/
def Handler.kind : Handler → WordKind
  | .primitive _ => .primitive
  | .secondary _ => .secondary

namespace Instruction

/-- An instruction made while running, which has no place in any text. -/
def made (element : Element) : Instruction := ⟨none, element⟩

end Instruction

end LiveStack
