import LiveStack.Document.Editor
import LiveStack.Text.Blank

/-!
# The editor as one line of text

The line shows the whole document. A bar stands behind the node the cursor is on, and braces stand
around the selection.
-/

namespace LiveStack

/-- What is marked in the line. -/
structure Marks where
  cursor : NodeId
  selection : Option Span
deriving DecidableEq, Repr

namespace Marks

/-- The mark before a node. -/
def before (marks : Marks) (id : NodeId) : String :=
  if marks.selection.map (·.first) = some id then "\x7b" else ""

/-- The marks behind a node. -/
def behind (marks : Marks) (id : NodeId) : String :=
  (if marks.selection.map (·.last) = some id then "\x7d" else "") ++
    if marks.cursor = id then "|" else ""

/-- The space behind a node: none behind the head of a list, unless the cursor is there. -/
def gap (marks : Marks) (item : Outline) : String :=
  if item.isHead && marks.cursor ≠ item.id then "" else " "

end Marks

mutual

/-- Draw an item behind `front`. -/
def Outline.draw (marks : Marks) (front : String) : Outline → String
  | .head _ => front
  | .word _ _ text => front ++ text
  | .list _ items => Outline.drawAll marks (front ++ "[ ") items ++ "]"

/-- Draw items behind `front`, with their marks. -/
def Outline.drawAll (marks : Marks) (front : String) : List Outline → String
  | [] => front
  | item :: rest =>
      let drawn := item.draw marks (front ++ marks.before item.id)
      Outline.drawAll marks (drawn ++ marks.behind item.id ++ marks.gap item) rest

end

namespace Editor

/-- What is marked of an editor. -/
def marks (editor : Editor) : Marks := ⟨editor.cursor, editor.selection?⟩

/-- The editor as one line of text. -/
def render (editor : Editor) : String :=
  Text.trimEnd (Outline.drawAll editor.marks "" editor.document.outline)

end Editor

end LiveStack
