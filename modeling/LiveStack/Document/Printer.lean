import LiveStack.Document.Outline

/-!
# Source text of a document

The text of a document is its tokens with a space behind each. Writing can stop behind a node; the
lists around that node are closed all the same, so the text always has its brackets in pairs.
-/

namespace LiveStack

mutual

/-- Write an item behind `front`, up to `stop`; says whether `stop` was met. -/
def Outline.write (stop : Option NodeId) (front : String) : Outline → String × Bool
  | .head id => (front, stop = some id)
  | .word id _ text => (front ++ text ++ " ", stop = some id)
  | .list id items =>
      let (written, stopped) := Outline.writeAll stop (front ++ "[ ") items
      (written ++ "] ", stopped || stop = some id)

/-- Write items behind `front`, up to `stop`; says whether `stop` was met. -/
def Outline.writeAll (stop : Option NodeId) (front : String) : List Outline → String × Bool
  | [] => (front, false)
  | item :: rest =>
      match item.write stop front with
      | (written, true) => (written, true)
      | (written, false) => Outline.writeAll stop written rest

end

namespace Document

/-- The text from a node on, to the end of its list or up to and including `stop`. -/
def sourceFrom (document : Document) (id : NodeId) (stop : Option NodeId) : String :=
  (Outline.writeAll stop "" (document.outlineFrom id)).1

/-- The text of the whole document. -/
def source (document : Document) : String := document.sourceFrom document.top none

end Document

end LiveStack
