import LiveStack.Proofs.Document.Strict
import LiveStack.Session

/-!
# Strict editing

The operations of an editor, written out on top of the strict operations of its document. A step
that reads a node that was removed fails, and so does a loop that does not end.
-/

namespace LiveStack

open Document (root)

namespace Editor.Strict

/-! ## Selections -/

/-- The selected run, in document order. -/
def selection (editor : Editor) : Option (Option Span) :=
  match editor.anchor, editor.reach with
  | some anchor, some reach => do
      let passed ← Document.Strict.runOf editor.document anchor reach
      if passed.getLast? = some reach then return some ⟨anchor, reach⟩
      else return some ⟨reach, anchor⟩
  | _, _ => return none

/-- Select all of the top level. -/
def selectAll (editor : Editor) : Option Editor := do
  let document := editor.document
  let top ← document.about root document.top
  let first ← document.about top (document.next? top)
  let last ← document.about root (document.last? root)
  match first, last with
  | some first, some last =>
      return { editor with anchor := some first, reach := some last, cursor := last }
  | _, _ => return editor

/-- Take the selection along. -/
def extend (editor : Editor) (passed : NodeId) (beyond : Option NodeId) : Option Editor :=
  if editor.anchor = some passed then some editor.selectNone
  else
    let anchor := editor.anchor.or (some passed)
    let reach := if editor.reach = some passed then beyond else some passed
    match reach with
    | some id => do
        let isHead ← editor.document.about id (editor.document.isHead id)
        if isHead then return editor.selectNone
        else return { editor with anchor, reach := some id }
    | none => some editor.selectNone

/-! ## Moves -/

/-- An answer that is only asked for if it is wanted. -/
def whenWanted (wanted : Bool) (answer : Option (Option NodeId)) : Option (Option NodeId) :=
  if wanted then answer else some none

/-- Take the selection along, if it is to come along. -/
def extendWhen (wanted : Bool) (editor : Editor) (passed : NodeId) (beyond : Option NodeId) :
    Option Editor :=
  if wanted then extend editor passed beyond else some editor

/-- The node before the list that a node is in. -/
def outerPrev (document : Document) (id : NodeId) : Option (Option NodeId) := do
  match ← document.about id (document.enclosing? id) with
  | some list => document.about list (document.prev? list)
  | none => return none

/-- Move back by one node. -/
def movePrev (start : Editor) (motion : Motion) : Option (Bool × Editor) := do
  let editor := start.beginMove motion
  let document := editor.document
  let inner ← whenWanted (motion.stepIn && !motion.select)
    (document.about editor.cursor (document.last? editor.cursor))
  match inner with
  | some last => return editor.goTo last
  | none =>
      match ← document.about editor.cursor (document.prev? editor.cursor) with
      | some prev =>
          let editor ← extendWhen motion.select editor editor.cursor (some prev)
          return editor.goTo prev
      | none =>
          let outer ← whenWanted (motion.stepOut && !motion.select)
            (outerPrev document editor.cursor)
          match outer with
          | some prev => return editor.goTo prev
          | none => return (false, editor)

/-- Move forward by one node. -/
def moveNext (start : Editor) (motion : Motion) : Option (Bool × Editor) := do
  let editor := start.beginMove motion
  let document := editor.document
  match ← document.about editor.cursor (document.next? editor.cursor) with
  | some next =>
      let inner ← whenWanted (motion.stepIn && !motion.select)
        (document.about next (document.first? next))
      let (moved, editor) := editor.goTo (inner.getD next)
      let beyond ← whenWanted motion.select
        (document.about editor.cursor (document.next? editor.cursor))
      let editor ← extendWhen motion.select editor editor.cursor beyond
      return (moved, editor)
  | none =>
      let outer ← whenWanted (motion.stepOut && !motion.select)
        (document.about editor.cursor (document.enclosing? editor.cursor))
      match outer with
      | some list => return editor.goTo list
      | none => return (false, editor)

/-- Repeat a move until it stops moving. -/
def repeatMove (move : Editor → Option (Bool × Editor)) : (count : Nat) → Editor → Option Editor
  | 0, _ => none
  | count + 1, editor => do
      match ← move editor with
      | (true, editor) => repeatMove move count editor
      | (false, editor) => return editor

/-- Try one move, and another if the first did nothing. -/
def moveOr (first second : Editor → Option (Bool × Editor)) (editor : Editor) :
    Option (Bool × Editor) := do
  match ← first editor with
  | (true, editor) => return (true, editor)
  | (false, editor) => second editor

/-- Go to the front of a list. -/
def moveFirst (editor : Editor) (select : Bool) : Option (Bool × Editor) := do
  let back (editor : Editor) := movePrev editor { select }
  let out (editor : Editor) := movePrev editor { select, stepOut := true }
  let (moved, editor) ← moveOr back out editor
  let editor ← repeatMove back editor.document.chainLimit editor
  return (moved, editor)

/-- Go to the end of a list. -/
def moveLast (editor : Editor) (select : Bool) : Option (Bool × Editor) := do
  let forth (editor : Editor) := moveNext editor { select }
  let out (editor : Editor) := moveNext editor { select, stepOut := true }
  let (moved, editor) ← moveOr forth out editor
  let editor ← repeatMove forth editor.document.chainLimit editor
  return (moved, editor)

/-- Step on, out of the list being typed. -/
def closeList (editor : Editor) : Option (Bool × Editor) :=
  moveNext editor { stepIn := true, stepOut := true }

/-! ## Insertions -/

/-- Insert a word after the cursor and move onto it. -/
def insertWord (editor : Editor) (classify : Classifier) (text : String) : Option Editor := do
  let (word, document) ←
    Document.Strict.insertWordAfter editor.document editor.cursor (classify text) text
  return { document, cursor := word }

/-- Insert an empty list after the cursor and move into it. -/
def insertList (editor : Editor) : Option (NodeId × Editor) := do
  let (list, document) ← Document.Strict.insertListAfter editor.document editor.cursor
  let first ← document.about list (document.first? list)
  return (list, { document, cursor := first.getD list })

/-- Insert a token, with `depth` lists open that were opened by tokens before. -/
def insertToken (classify : Classifier) (state : Editor × Nat) (token : Token) :
    Option (Editor × Nat) := do
  let (editor, depth) := state
  match token.lexeme with
  | .opening =>
      let (_, editor) ← insertList editor
      return (editor, depth + 1)
  | .closing =>
      if depth = 0 then return (editor, 0)
      else
        let (_, editor) ← closeList editor
        return (editor, depth - 1)
  | .string text | .word text =>
      let editor ← insertWord editor classify text
      return (editor, depth)

/-- Step out of the lists that were left open. -/
def closeOpen : (depth : Nat) → Editor → Option Editor
  | 0, editor => some editor
  | depth + 1, editor => do
      match ← closeList editor with
      | (true, editor) => closeOpen depth editor
      | (false, editor) => return editor

/-- Insert source text at the cursor. -/
def insertSource (editor : Editor) (classify : Classifier) (source : String) : Option Editor := do
  let (tokens, _) := Token.ofSource "<insert>" source
  let (editor, depth) ← tokens.foldlM (insertToken classify) (editor, 0)
  closeOpen depth editor

/-! ## Deletions -/

/-- Take the selected run out of its list. -/
def detachSelection (editor : Editor) : Option (Option Span × Editor) := do
  match ← selection editor with
  | none => return (none, editor)
  | some span =>
      let editor := editor.selectNone
      match ← Document.Strict.unlinkRun editor.document span.first span.last with
      | some (prev, document) => return (some span, { editor with document, cursor := prev })
      | none => return (none, editor)

/-- Remove the selected run. -/
def deleteSelection (editor : Editor) : Option (Bool × Editor) := do
  match ← detachSelection editor with
  | (some span, editor) =>
      let document ← Document.Strict.freeRun editor.document span.first span.last
      return (true, { editor with document })
  | (none, editor) => return (false, editor)

/-- Remove the node after the cursor. -/
def removeNext (editor : Editor) : Option Editor := do
  match ← editor.document.about editor.cursor (editor.document.next? editor.cursor) with
  | none => return editor
  | some passed =>
      let cut ← Document.Strict.unlinkRun editor.document passed passed
      let document := cut.elim editor.document Prod.snd
      let document ← Document.Strict.free document.chainLimit document passed
      return { editor with document }

/-- Delete backwards. -/
def deletePrev (editor : Editor) (stepIn stepOut : Bool) : Option (Bool × Editor) := do
  if editor.hasSelection then deleteSelection editor
  else match ← movePrev editor { stepIn, stepOut } with
    | (true, editor) =>
        let editor ← removeNext editor
        return (true, editor)
    | (false, editor) => return (false, editor)

/-- Delete forwards. -/
def deleteNext (editor : Editor) (stepIn stepOut : Bool) : Option (Bool × Editor) := do
  if editor.hasSelection then deleteSelection editor
  else match ← moveNext editor { stepIn, stepOut } with
    | (true, editor) => deletePrev editor stepIn stepOut
    | (false, editor) => return (false, editor)

/-! ## Lists -/

/-- Put the selected run into a new list in its place. -/
def quoteSelection (editor : Editor) : Option (Option NodeId × Editor) := do
  match ← detachSelection editor with
  | (none, editor) => return (none, editor)
  | (some span, editor) =>
      let (list, document) ← Document.Strict.insertListAfter editor.document editor.cursor
      let first ← document.about list (document.first? list)
      let document ←
        Document.Strict.spliceRunAfter document (first.getD list) span.first span.last
      return (some list, { editor with document, cursor := list })

/-- Replace the list under the cursor by what is in it. -/
def unquote (editor : Editor) : Option (Bool × Editor) := do
  let list := editor.cursor
  let isList ← editor.document.about list (editor.document.isList list)
  if !isList then return (false, editor)
  else
    let editor := editor.selectNone
    let children ← Document.Strict.children editor.document list
    match ← Document.Strict.unlinkRun editor.document list list with
    | none => return (false, editor)
    | some (prev, document) =>
        let (cursor, document) ←
          match children.head?, children.getLast? with
          | some first, some last =>
              (Document.Strict.spliceRunAfter document prev first last).map (last, ·)
          | _, _ => pure (prev, document)
        let document ← Document.Strict.freeShell document list
        return (true, { editor with document, cursor })

/-! ## The whole document -/

/-- Remove everything. -/
def clear (editor : Editor) : Option Editor := do
  let document ← Document.Strict.clear editor.document
  let top ← document.about root document.top
  return { document, cursor := top }

end Editor.Strict

/-! ## Steps -/

/-- One operation of an editor: an edit, or one that is not offered as an edit. -/
inductive Editor.Step where
  | edit (change : Edit) (classify : Editor.Classifier)
  | deleteSelection
  | clear
  | reclassify (classify : Editor.Classifier)

namespace Editor.Step

/-- The editor after a step. -/
def perform (editor : Editor) : Step → Editor
  | .edit change classify => (change.apply classify editor).2
  | .deleteSelection => editor.deleteSelection.2
  | .clear => editor.clear
  | .reclassify classify => editor.reclassify classify

end Editor.Step

/-- Apply an edit strictly. -/
def Edit.applyStrictly (edit : Edit) (classify : Editor.Classifier) (editor : Editor) :
    Option (Bool × Editor) :=
  match edit with
  | .movePrev motion => Editor.Strict.movePrev editor motion
  | .moveNext motion => Editor.Strict.moveNext editor motion
  | .moveFirst select => Editor.Strict.moveFirst editor select
  | .moveLast select => Editor.Strict.moveLast editor select
  | .insertWord text => (Editor.Strict.insertWord editor classify text).map (true, ·)
  | .insertList => (Editor.Strict.insertList editor).map fun made => (true, made.2)
  | .closeList => Editor.Strict.closeList editor
  | .insertSource source => (Editor.Strict.insertSource editor classify source).map (true, ·)
  | .deletePrev stepIn stepOut => Editor.Strict.deletePrev editor stepIn stepOut
  | .deleteNext stepIn stepOut => Editor.Strict.deleteNext editor stepIn stepOut
  | .selectAll => (Editor.Strict.selectAll editor).map (true, ·)
  | .selectNone => some (true, editor.selectNone)
  | .quote => (Editor.Strict.quoteSelection editor).map fun made => (made.1.isSome, made.2)
  | .unquote => Editor.Strict.unquote editor

/-- Perform a step strictly: it fails if it reads a node that was removed, or doesn't end. -/
def Editor.Step.performStrictly (editor : Editor) : Editor.Step → Option Editor
  | .edit change classify => (change.applyStrictly classify editor).map (·.2)
  | .deleteSelection => (Editor.Strict.deleteSelection editor).map (·.2)
  | .clear => Editor.Strict.clear editor
  | .reclassify classify => some (editor.reclassify classify)

end LiveStack
