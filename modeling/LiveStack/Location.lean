/-!
# Places in source text

A `Location` names a text and a place in it. Tokens, instructions, calls and faults carry one, so
that a message can point at the text that caused it.
-/

namespace LiveStack

/-- A place in a named text. Lines and columns count from one, columns in characters. -/
structure Location where
  name : String
  line : Nat := 1
  column : Nat := 1
deriving DecidableEq, Repr, Inhabited

namespace Location

/-- The first place of the text called `name`. -/
def start (name : String) : Location := ⟨name, 1, 1⟩

/-- Stands in where no text is known. -/
def unspecified : Location := start "unspecified"

/-- The place after the character `c`: a line feed starts the next line, every other character
takes one column. -/
def after (place : Location) (c : Char) : Location :=
  if c = '\n' then ⟨place.name, place.line + 1, 1⟩
  else ⟨place.name, place.line, place.column + 1⟩

/-- The place after all the characters of `text`, read in order. -/
def advance (place : Location) (text : List Char) : Location :=
  text.foldl after place

/-- The written form, `name (line, column)`. -/
def render (place : Location) : String :=
  s!"{place.name} ({place.line}, {place.column})"

@[simp] theorem advance_nil (place : Location) : place.advance [] = place := rfl

@[simp] theorem advance_cons (place : Location) (c : Char) (text : List Char) :
    place.advance (c :: text) = (place.after c).advance text := rfl

theorem advance_append (place : Location) (front back : List Char) :
    place.advance (front ++ back) = (place.advance front).advance back := by
  simp [advance]

@[simp] theorem name_after (place : Location) (c : Char) : (place.after c).name = place.name := by
  unfold after
  split <;> rfl

end Location

end LiveStack
