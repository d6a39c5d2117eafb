import LiveStack.Document.Basic

/-!
# Outlines

An `Outline` is the ordered tree that a document's links describe, with the numbers of its nodes.
What is shown or run of a document is a function of its outline.

A place in an outline is given by a path: the index of a node in each list from the top level
down, where the head of a list has index zero.
-/

namespace LiveStack

/-- A node with all that is in it. The items of a list begin with its head. -/
inductive Outline where
  | head (id : NodeId)
  | word (id : NodeId) (reading : TokenClass) (text : String)
  | list (id : NodeId) (items : List Outline)

namespace Outline

/-- The number of the node. -/
def id : Outline → NodeId
  | .head id | .word id _ _ | .list id _ => id

/-- Whether the node is the head of a list. -/
def isHead : Outline → Bool
  | .head _ => true
  | _ => false

/-- The path of a node among `items`, the first of which has index `index`. -/
def pathFrom? (target : NodeId) (index : Nat) : List Outline → Option (List Nat)
  | [] => none
  | .list id inner :: rest =>
      if id = target then some [index]
      else match pathFrom? target 0 inner with
        | some path => some (index :: path)
        | none => pathFrom? target (index + 1) rest
  | item :: rest =>
      if item.id = target then some [index] else pathFrom? target (index + 1) rest

/-- The path of a node among `items`. -/
def path? (items : List Outline) (target : NodeId) : Option (List Nat) :=
  pathFrom? target 0 items

/-- The node at a path among `items`. -/
def at? (items : List Outline) : List Nat → Option NodeId
  | [] => none
  | [index] => items[index]?.map id
  | index :: path =>
      match items[index]? with
      | some (.list _ inner) => at? inner path
      | _ => none

end Outline

namespace Document

/-- The outline of a chain, from `id` on. Looks at `fuel` nodes at most on any way down and
along. -/
def readFrom (document : Document) : (fuel : Nat) → (id : Option NodeId) → List Outline
  | 0, _ => []
  | _, none => []
  | fuel + 1, some id =>
      match document.get? id with
      | none => []
      | some node =>
          let item : Outline :=
            match node.kind with
            | .head => .head id
            | .word reading text => .word id reading text
            | .list first _ => .list id (document.readFrom fuel (some first))
          item :: document.readFrom fuel node.next

/-- The outline of a node and all siblings after it. -/
def outlineFrom (document : Document) (id : NodeId) : List Outline :=
  document.readFrom document.chainLimit (some id)

/-- The outline of the top level. -/
def outline (document : Document) : List Outline := document.outlineFrom document.top

/-- The path of a node. -/
def path? (document : Document) (id : NodeId) : Option (List Nat) :=
  Outline.path? document.outline id

/-- The node at a path. -/
def at? (document : Document) (path : List Nat) : Option NodeId :=
  Outline.at? document.outline path

end Document

end LiveStack
