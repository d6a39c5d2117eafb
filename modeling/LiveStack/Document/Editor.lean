import LiveStack.Document.Printer
import LiveStack.Token

/-!
# The editor

Structural editing of a document. The cursor stands on a node, and what is inserted goes in right
after it; on the head of a list that is the front of the list. A selection is kept as the two ends
that were marked, in the order they were marked; which comes first is found out when it is read.

Every operation gives the editor after it, and the moves and deletions also say whether they did
anything.
-/

namespace LiveStack

/-- A run of siblings, by its ends. -/
structure Span where
  first : NodeId
  last : NodeId
deriving DecidableEq, Repr

/-- A document with a cursor and perhaps a selection. -/
structure Editor where
  document : Document
  cursor : NodeId
  /-- The end of the selection that was marked first, and stays. -/
  anchor : Option NodeId := none
  /-- The end of the selection that moves with the cursor. -/
  reach : Option NodeId := none
deriving DecidableEq, Repr

/-- How a move treats lists and the selection. -/
structure Motion where
  /-- Step into a list in the way. -/
  stepIn : Bool := false
  /-- Step out of a list at its end. -/
  stepOut : Bool := false
  /-- Take the selection along. A selecting move steps neither in nor out. -/
  select : Bool := false
deriving DecidableEq, Repr

namespace Editor

/-- Classifies tokens as they are typed. -/
abbrev Classifier := String → TokenClass

/-- An editor on an empty document. -/
def new : Editor := { document := .empty, cursor := Document.empty.top }

/-! ## Selections -/

/-- Whether an end of a selection is marked. -/
def hasSelection (editor : Editor) : Bool := editor.anchor.isSome || editor.reach.isSome

/-- The selected run, in document order. -/
def selection? (editor : Editor) : Option Span := do
  let anchor ← editor.anchor
  let reach ← editor.reach
  if reach ∈ editor.document.siblingsFrom anchor then return ⟨anchor, reach⟩
  else return ⟨reach, anchor⟩

/-- Drop the selection. -/
def selectNone (editor : Editor) : Editor := { editor with anchor := none, reach := none }

/-- Select all of the top level, if there is anything, with the cursor at its end. -/
def selectAll (editor : Editor) : Editor :=
  let document := editor.document
  match document.next? document.top, document.last? Document.root with
  | some first, some last =>
      { editor with anchor := some first, reach := some last, cursor := last }
  | _, _ => editor

/-- Take the selection along as the cursor passes over `passed`, with `beyond` the node behind it.
Passing back over the anchor drops the selection, and no selection ends on a head. -/
def extend (editor : Editor) (passed : NodeId) (beyond : Option NodeId) : Editor :=
  if editor.anchor = some passed then editor.selectNone
  else
    let anchor := editor.anchor.or (some passed)
    let reach := if editor.reach = some passed then beyond else some passed
    match reach with
    | some id =>
        if editor.document.isHead id then editor.selectNone
        else { editor with anchor, reach := some id }
    | none => editor.selectNone

/-! ## Moves -/

/-- Put the cursor on a node. -/
def goTo (editor : Editor) (id : NodeId) : Bool × Editor := (true, { editor with cursor := id })

/-- What a move begins with: unless it selects, the selection is dropped. -/
def beginMove (editor : Editor) (motion : Motion) : Editor :=
  if motion.select then editor else editor.selectNone

/-- Move back by one node. Stepping in, a cursor on a list goes to the list's last child; stepping
out, a cursor at the front of a list goes to the node before the list. -/
def movePrev (start : Editor) (motion : Motion) : Bool × Editor :=
  let editor := start.beginMove motion
  let document := editor.document
  let inner := if motion.stepIn && !motion.select then document.last? editor.cursor else none
  match inner with
  | some last => editor.goTo last
  | none =>
      match document.prev? editor.cursor with
      | some prev =>
          let editor := if motion.select then editor.extend editor.cursor (some prev) else editor
          editor.goTo prev
      | none =>
          let outer :=
            if motion.stepOut && !motion.select then
              (document.enclosing? editor.cursor).bind document.prev?
            else none
          match outer with
          | some prev => editor.goTo prev
          | none => (false, editor)

/-- Move forward by one node. Stepping in, a move onto a list goes on to the list's head; stepping
out, a cursor at the end of a list goes onto the list. -/
def moveNext (start : Editor) (motion : Motion) : Bool × Editor :=
  let editor := start.beginMove motion
  let document := editor.document
  match document.next? editor.cursor with
  | some next =>
      let inner := if motion.stepIn && !motion.select then document.first? next else none
      let (moved, editor) := editor.goTo (inner.getD next)
      if motion.select then
        (moved, editor.extend editor.cursor (document.next? editor.cursor))
      else (moved, editor)
  | none =>
      let outer :=
        if motion.stepOut && !motion.select then document.enclosing? editor.cursor else none
      match outer with
      | some list => editor.goTo list
      | none => (false, editor)

/-- Repeat a move until it stops moving, `count` times at most. -/
def repeatMove (move : Editor → Bool × Editor) : (count : Nat) → Editor → Editor
  | 0, editor => editor
  | count + 1, editor =>
      match move editor with
      | (true, editor) => repeatMove move count editor
      | (false, editor) => editor

/-- Try one move, and another if the first did nothing. -/
def moveOr (first second : Editor → Bool × Editor) (editor : Editor) : Bool × Editor :=
  match first editor with
  | (true, editor) => (true, editor)
  | (false, editor) => second editor

/-- Go to the front of the list the cursor is in, or of the list around that if it is there. -/
def moveFirst (editor : Editor) (select : Bool) : Bool × Editor :=
  let back (editor : Editor) := editor.movePrev { select }
  let out (editor : Editor) := editor.movePrev { select, stepOut := true }
  let (moved, editor) := moveOr back out editor
  (moved, repeatMove back editor.document.chainLimit editor)

/-- Go to the end of the list the cursor is in, or behind that list if it is there. -/
def moveLast (editor : Editor) (select : Bool) : Bool × Editor :=
  let forth (editor : Editor) := editor.moveNext { select }
  let out (editor : Editor) := editor.moveNext { select, stepOut := true }
  let (moved, editor) := moveOr forth out editor
  (moved, repeatMove forth editor.document.chainLimit editor)

/-- Step on, out of the list being typed. -/
def closeList (editor : Editor) : Bool × Editor :=
  editor.moveNext { stepIn := true, stepOut := true }

/-! ## Insertions -/

/-- Insert a word after the cursor and move onto it. -/
def insertWord (editor : Editor) (classify : Classifier) (text : String) : Editor :=
  let (word, document) :=
    editor.document.insertWordAfter editor.cursor (classify text) text
  { document, cursor := word }

/-- Insert an empty list after the cursor and move into it. Gives the list. -/
def insertList (editor : Editor) : NodeId × Editor :=
  let (list, document) := editor.document.insertListAfter editor.cursor
  (list, { document, cursor := (document.first? list).getD list })

/-- Insert a token, with `depth` lists open that were opened by tokens before. A closing bracket
that closes none of these is dropped. -/
def insertToken (classify : Classifier) (state : Editor × Nat) (token : Token) : Editor × Nat :=
  let (editor, depth) := state
  match token.lexeme with
  | .opening => (editor.insertList.2, depth + 1)
  | .closing => if depth = 0 then (editor, 0) else (editor.closeList.2, depth - 1)
  | .string text | .word text => (editor.insertWord classify text, depth)

/-- Step out of the lists that were left open. -/
def closeOpen : (depth : Nat) → Editor → Editor
  | 0, editor => editor
  | depth + 1, editor =>
      match editor.closeList with
      | (true, editor) => closeOpen depth editor
      | (false, editor) => editor

/-- Insert source text at the cursor, token by token, and end behind all of it. -/
def insertSource (editor : Editor) (classify : Classifier) (source : String) : Editor :=
  let (tokens, _) := Token.ofSource "<insert>" source
  let (editor, depth) := tokens.foldl (insertToken classify) (editor, 0)
  closeOpen depth editor

/-! ## Deletions -/

/-- Take the selected run out of its list, with the cursor where it was. The first part is the
run, if one was taken out. -/
def detachSelection (editor : Editor) : Option Span × Editor :=
  match editor.selection? with
  | none => (none, editor)
  | some span =>
      let editor := editor.selectNone
      match editor.document.unlinkRun span.first span.last with
      | some (prev, document) => (some span, { editor with document, cursor := prev })
      | none => (none, editor)

/-- Remove the selected run; the cursor ends up before where it was. -/
def deleteSelection (editor : Editor) : Bool × Editor :=
  match editor.detachSelection with
  | (some span, editor) =>
      (true, { editor with document := editor.document.freeRun span.first span.last })
  | (none, editor) => (false, editor)

/-- Remove the node after the cursor, with all that is in it. -/
def removeNext (editor : Editor) : Editor :=
  match editor.document.next? editor.cursor with
  | none => editor
  | some passed =>
      match editor.document.unlinkRun passed passed with
      | some (_, document) => { editor with document := document.free passed }
      | none => { editor with document := editor.document.free passed }

/-- Delete backwards: the selection if there is one, else the node that a move back passes
over. -/
def deletePrev (editor : Editor) (stepIn stepOut : Bool) : Bool × Editor :=
  if editor.hasSelection then editor.deleteSelection
  else match editor.movePrev { stepIn, stepOut } with
    | (true, editor) => (true, editor.removeNext)
    | (false, editor) => (false, editor)

/-- Delete forwards: the selection if there is one, else move forward and delete backwards. -/
def deleteNext (editor : Editor) (stepIn stepOut : Bool) : Bool × Editor :=
  if editor.hasSelection then editor.deleteSelection
  else match editor.moveNext { stepIn, stepOut } with
    | (true, editor) => editor.deletePrev stepIn stepOut
    | (false, editor) => (false, editor)

/-! ## Lists -/

/-- Put the selected run into a new list in its place, with the cursor on the list. Gives the
list, if there was a selection. -/
def quoteSelection (editor : Editor) : Option NodeId × Editor :=
  match editor.detachSelection with
  | (none, editor) => (none, editor)
  | (some span, editor) =>
      let (list, document) := editor.document.insertListAfter editor.cursor
      let head := (document.first? list).getD list
      let document := document.spliceRunAfter head span.first span.last
      (some list, { editor with document, cursor := list })

/-- Replace the list under the cursor by what is in it, with the cursor on the last of it. -/
def unquote (editor : Editor) : Bool × Editor :=
  let list := editor.cursor
  if !editor.document.isList list then (false, editor)
  else
    let editor := editor.selectNone
    let children := editor.document.children list
    match editor.document.unlinkRun list list with
    | none => (false, editor)
    | some (prev, document) =>
        let (cursor, document) :=
          match children.head?, children.getLast? with
          | some first, some last => (last, document.spliceRunAfter prev first last)
          | _, _ => (prev, document)
        (true, { editor with document := document.freeShell list, cursor })

/-! ## The whole document -/

/-- Remove everything. -/
def clear (editor : Editor) : Editor :=
  let document := editor.document.clear
  { document, cursor := document.top }

/-- Classify every word anew. -/
def reclassify (editor : Editor) (classify : Classifier) : Editor :=
  { editor with document := editor.document.reclassify classify }

/-- The whole program as source text. -/
def source (editor : Editor) : String := editor.document.source

/-- The program up to the cursor. The lists around the cursor are closed. -/
def sourceToCursor (editor : Editor) : String :=
  editor.document.sourceFrom editor.document.top (some editor.cursor)

/-- The selected run as source text. -/
def selectionSource? (editor : Editor) : Option String :=
  editor.selection?.map fun span => editor.document.sourceFrom span.first (some span.last)

/-- The word under the cursor, if it is on one, and its class. -/
def wordAtCursor? (editor : Editor) : Option (String × TokenClass) :=
  match editor.document.kind? editor.cursor with
  | some (.word reading text) => some (text, reading)
  | _ => none

end Editor

end LiveStack
