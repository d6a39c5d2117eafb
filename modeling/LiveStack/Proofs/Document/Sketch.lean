import LiveStack.Document.Editor
import LiveStack.Proofs.Document.Links

/-!
# Sketches

A `Sketch` is what is left of an outline when the numbers of the nodes and the classes of the words
are forgotten, and the node the cursor is on is marked instead. The text up to the cursor is a
function of the sketch, and classifying the words anew leaves the sketch as it is.
-/

namespace LiveStack

/-- A node without its number. `here` says whether the cursor is on it. -/
inductive Sketch where
  | head (here : Bool)
  | word (text : String) (here : Bool)
  | list (items : List Sketch) (here : Bool)

mutual

/-- Write an item behind `front`, up to the cursor; says whether the cursor was met. -/
def Sketch.write (front : String) : Sketch → String × Bool
  | .head here => (front, here)
  | .word text here => (front ++ text ++ " ", here)
  | .list items here =>
      let (written, stopped) := Sketch.writeAll (front ++ "[ ") items
      (written ++ "] ", stopped || here)

/-- Write items behind `front`, up to the cursor; says whether the cursor was met. -/
def Sketch.writeAll (front : String) : List Sketch → String × Bool
  | [] => (front, false)
  | item :: rest =>
      match item.write front with
      | (written, true) => (written, true)
      | (written, false) => Sketch.writeAll written rest

end

mutual

/-- The texts of the words, in order. -/
def Sketch.texts : Sketch → List String
  | .head _ => []
  | .word text _ => [text]
  | .list items _ => Sketch.textsAll items

/-- The texts of the words of some items, in order. -/
def Sketch.textsAll : List Sketch → List String
  | [] => []
  | item :: rest => item.texts ++ Sketch.textsAll rest

end

namespace Outline

mutual

/-- The sketch of a node. -/
def sketch (cursor : NodeId) : Outline → Sketch
  | .head id => .head (cursor = id)
  | .word id _ text => .word text (cursor = id)
  | .list id items => .list (sketchAll cursor items) (cursor = id)

/-- The sketches of some nodes. -/
def sketchAll (cursor : NodeId) : List Outline → List Sketch
  | [] => []
  | item :: rest => item.sketch cursor :: sketchAll cursor rest

end

mutual

/-- The words with their classes, in order. -/
def words : Outline → List (String × TokenClass)
  | .head _ => []
  | .word _ reading text => [(text, reading)]
  | .list _ items => wordsAll items

/-- The words of some nodes with their classes, in order. -/
def wordsAll : List Outline → List (String × TokenClass)
  | [] => []
  | item :: rest => item.words ++ wordsAll rest

end

mutual

/-- The node with its words classified anew. -/
def reread (classify : String → TokenClass) : Outline → Outline
  | .head id => .head id
  | .word id _ text => .word id (classify text) text
  | .list id items => .list id (rereadAll classify items)

/-- Some nodes with their words classified anew. -/
def rereadAll (classify : String → TokenClass) : List Outline → List Outline
  | [] => []
  | item :: rest => item.reread classify :: rereadAll classify rest

end

mutual

theorem write_eq_sketch (cursor : NodeId) (front : String) (item : Outline) :
    item.write (some cursor) front = (item.sketch cursor).write front := by
  match item with
  | .head id => simp [write, sketch, Sketch.write]
  | .word id reading text => simp [write, sketch, Sketch.write]
  | .list id items =>
      simp [write, sketch, Sketch.write, writeAll_eq_sketch cursor (front ++ "[ ") items]

theorem writeAll_eq_sketch (cursor : NodeId) (front : String) (items : List Outline) :
    writeAll (some cursor) front items = Sketch.writeAll front (sketchAll cursor items) := by
  match items with
  | [] => rfl
  | item :: rest =>
      rw [writeAll, sketchAll, Sketch.writeAll, write_eq_sketch cursor front item]
      match (item.sketch cursor).write front with
      | (written, true) => rfl
      | (written, false) => exact writeAll_eq_sketch cursor written rest

end

variable (classify : String → TokenClass)

mutual

theorem sketch_reread (cursor : NodeId) (item : Outline) :
    (item.reread classify).sketch cursor = item.sketch cursor := by
  match item with
  | .head id => rfl
  | .word id reading text => rfl
  | .list id items => rw [reread, sketch, sketch, sketchAll_reread cursor items]

theorem sketchAll_reread (cursor : NodeId) (items : List Outline) :
    sketchAll cursor (rereadAll classify items) = sketchAll cursor items := by
  match items with
  | [] => rfl
  | item :: rest =>
      rw [rereadAll, sketchAll, sketchAll, sketch_reread cursor item, sketchAll_reread cursor rest]

end

mutual

theorem words_reread (cursor : NodeId) (item : Outline) :
    (item.reread classify).words =
      (item.sketch cursor).texts.map fun text => (text, classify text) := by
  match item with
  | .head id => rfl
  | .word id reading text => rfl
  | .list id items => rw [reread, words, sketch, Sketch.texts, wordsAll_reread cursor items]

theorem wordsAll_reread (cursor : NodeId) (items : List Outline) :
    wordsAll (rereadAll classify items) =
      (Sketch.textsAll (sketchAll cursor items)).map fun text => (text, classify text) := by
  match items with
  | [] => rfl
  | item :: rest =>
      rw [rereadAll, wordsAll, sketchAll, Sketch.textsAll, List.map_append,
        words_reread cursor item, wordsAll_reread cursor rest]

end

end Outline

namespace Document

variable (document : Document) (classify : String → TokenClass)

theorem readFrom_reclassify (fuel : Nat) (id : Option NodeId) :
    (document.reclassify classify).readFrom fuel id =
      Outline.rereadAll classify (document.readFrom fuel id) := by
  induction fuel generalizing id with
  | zero => rfl
  | succ fuel ih =>
      cases id with
      | none => rfl
      | some id =>
          rw [readFrom, readFrom, get?_reclassify]
          cases document.get? id with
          | none => rfl
          | some node =>
              obtain ⟨kind, prev, next, parent⟩ := node
              cases kind <;> simp [Outline.rereadAll, Outline.reread, ih]

theorem top_reclassify : (document.reclassify classify).top = document.top := by
  rw [top, top, first?, first?, kind?, kind?, get?_reclassify]
  cases document.get? root with
  | none => rfl
  | some node =>
      obtain ⟨kind, prev, next, parent⟩ := node
      cases kind <;> rfl

theorem outline_reclassify :
    (document.reclassify classify).outline = Outline.rereadAll classify document.outline := by
  have limit : (document.reclassify classify).chainLimit = document.chainLimit := by
    simp [chainLimit, reclassify]
  rw [outline, outline, outlineFrom, outlineFrom, limit, top_reclassify, readFrom_reclassify]

end Document

namespace Editor

/-- The tree with the cursor marked in it. -/
def sketch (editor : Editor) : List Sketch :=
  Outline.sketchAll editor.cursor editor.document.outline

theorem sourceToCursor_eq (editor : Editor) :
    editor.sourceToCursor = (Sketch.writeAll "" editor.sketch).1 := by
  rw [sketch, ← Outline.writeAll_eq_sketch]
  rfl

theorem sketch_reclassify (editor : Editor) (classify : Classifier) :
    (editor.reclassify classify).sketch = editor.sketch := by
  rw [sketch, sketch, reclassify, Document.outline_reclassify, Outline.sketchAll_reread]

/-- The words of the program with their classes, in order. -/
def words (editor : Editor) : List (String × TokenClass) :=
  Outline.wordsAll editor.document.outline

theorem words_reclassify (editor : Editor) (classify : Classifier) :
    (editor.reclassify classify).words =
      (Sketch.textsAll editor.sketch).map fun text => (text, classify text) := by
  rw [words, reclassify, Document.outline_reclassify,
    Outline.wordsAll_reread classify editor.cursor, sketch]

end Editor

end LiveStack
