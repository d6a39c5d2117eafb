import LiveStack.Dictionary

/-!
# The document

A program being edited is a tree of words and nested lists. Its nodes live in an arena and refer
to each other by number: siblings are chained both ways, and every node knows its list. Each list
begins with a node of its own that holds nothing, its head, where a cursor can stand in front of
the first child. The top level is the hidden root list, so every node but the root is in a list.

The arena stands for a slot map, a library's store of nodes under keys that it gives out. This is
what is taken for granted of it: there is always room for one more node, and the key of a node that
was removed is never valid again, for no other node either. So here a key is a number that is given
out once. Nodes that are removed leave it unused, and every question about them is answered as for a
node without links.
-/

namespace LiveStack

/-- The number of a node. -/
abbrev NodeId := Nat

/-- What a node holds. -/
inductive NodeKind where
  /-- The head of a list. -/
  | head
  /-- A token, and how it read when it was last classified. -/
  | word (reading : TokenClass) (text : String)
  /-- A nested list, from its head to its last child. The head of an empty list is also its
  last. -/
  | list (first last : NodeId)
deriving DecidableEq, Repr

/-- A node with its links. -/
structure Node where
  kind : NodeKind
  prev : Option NodeId := none
  next : Option NodeId := none
  parent : Option NodeId := none
deriving DecidableEq, Repr

/-- The arena of the nodes. -/
structure Document where
  slots : Array (Option Node)
deriving DecidableEq, Repr

namespace Document

/-! ## Looking at nodes -/

/-- The hidden list that holds the top level. -/
def root : NodeId := 0

/-- The node of a number, unless it was removed. -/
def get? (document : Document) (id : NodeId) : Option Node := document.slots[id]?.join

/-- What a node holds. -/
def kind? (document : Document) (id : NodeId) : Option NodeKind := (document.get? id).map (·.kind)

/-- The sibling before a node. -/
def prev? (document : Document) (id : NodeId) : Option NodeId := (document.get? id).bind (·.prev)

/-- The sibling after a node. -/
def next? (document : Document) (id : NodeId) : Option NodeId := (document.get? id).bind (·.next)

/-- The list a node is in. -/
def parent? (document : Document) (id : NodeId) : Option NodeId :=
  (document.get? id).bind (·.parent)

/-- The head of a list. -/
def first? (document : Document) (id : NodeId) : Option NodeId :=
  match document.kind? id with
  | some (.list first _) => some first
  | _ => none

/-- The last child of a list, or its head if it is empty. -/
def last? (document : Document) (id : NodeId) : Option NodeId :=
  match document.kind? id with
  | some (.list _ last) => some last
  | _ => none

/-- Whether a node is a list. -/
def isList (document : Document) (id : NodeId) : Bool := (document.first? id).isSome

/-- Whether a node is the head of a list. -/
def isHead (document : Document) (id : NodeId) : Bool := document.kind? id = some .head

/-- The list a node is in, unless that is the top level: the list one can step out of. -/
def enclosing? (document : Document) (id : NodeId) : Option NodeId :=
  (document.parent? id).filter (· ≠ root)

/-- The head of the top level. -/
def top (document : Document) : NodeId := (document.first? root).getD root

/-- Whether there is nothing on the top level. -/
def isEmpty (document : Document) : Bool := (document.next? document.top).isNone

/-- The numbers of the nodes that have not been removed. -/
def live (document : Document) : List NodeId :=
  (List.range document.slots.size).filter fun id => (document.get? id).isSome

/-- The number of nodes that have not been removed. -/
def size (document : Document) : Nat := document.live.length

/-- A chain has at most as many nodes as the arena has slots. -/
def chainLimit (document : Document) : Nat := document.slots.size

/-- At most `count` nodes of a chain, from `id` on. -/
def chain (document : Document) : (count : Nat) → (id : Option NodeId) → List NodeId
  | 0, _ => []
  | _, none => []
  | count + 1, some id => id :: document.chain count (document.next? id)

/-- A node and all siblings after it. -/
def siblingsFrom (document : Document) (id : NodeId) : List NodeId :=
  document.chain document.chainLimit (some id)

/-- The children of a list without its head. -/
def children (document : Document) (list : NodeId) : List NodeId :=
  match (document.first? list).bind document.next? with
  | some child => document.siblingsFrom child
  | none => []

/-- The siblings from one node to another. If the second does not follow the first, the run goes
on to the end of the list. -/
def run (document : Document) (first last : NodeId) : List NodeId :=
  let siblings := document.siblingsFrom first
  let before := siblings.takeWhile (· ≠ last)
  before ++ (siblings.drop before.length).take 1

/-! ## Changing nodes -/

/-- Change a node. -/
def update (document : Document) (id : NodeId) (change : Node → Node) : Document :=
  ⟨document.slots.modify id (·.map change)⟩

/-- Set the sibling before a node. -/
def setPrev (document : Document) (id : NodeId) (prev : Option NodeId) : Document :=
  document.update id fun node => { node with prev }

/-- Set the sibling after a node. -/
def setNext (document : Document) (id : NodeId) (next : Option NodeId) : Document :=
  document.update id fun node => { node with next }

/-- Set the list a node is in. -/
def setParent (document : Document) (id : NodeId) (parent : Option NodeId) : Document :=
  document.update id fun node => { node with parent }

/-- Set the last child of a list. -/
def setLast (document : Document) (list : NodeId) (last : NodeId) : Document :=
  document.update list fun node =>
    match node.kind with
    | .list first _ => { node with kind := .list first last }
    | _ => node

/-- Make `last` the end of a chain: `next` comes after it, or the list ends with it. -/
def joinAfter (document : Document) (list next : Option NodeId) (last : NodeId) : Document :=
  match next with
  | some next => document.setPrev next (some last)
  | none =>
      match list with
      | some list => document.setLast list last
      | none => document

/-- Add a node; its number is the number of slots before. -/
def push (document : Document) (node : Node) : Document :=
  ⟨document.slots.push (some node)⟩

/-- Remove a node, whatever its links. -/
def erase (document : Document) (id : NodeId) : Document :=
  ⟨document.slots.modify id fun _ => none⟩

/-- Add an empty list and its head, linked to nothing else. -/
def pushList (document : Document) : NodeId × Document :=
  let list := document.slots.size
  let head := list + 1
  (list, (document.push { kind := .list head head }).push { kind := .head, parent := some list })

/-- A document with nothing on the top level. -/
def empty : Document := (pushList ⟨#[]⟩).2

/-- Link a node without links in after `anchor`. -/
def linkAfter (document : Document) (anchor id : NodeId) : Document :=
  let parent := document.parent? anchor
  let next := document.next? anchor
  let linked := document.update id fun node => { node with prev := some anchor, next, parent }
  (linked.setNext anchor (some id)).joinAfter parent next id

/-- Add a word after `anchor`. -/
def insertWordAfter (document : Document) (anchor : NodeId) (reading : TokenClass)
    (text : String) : NodeId × Document :=
  let word := document.slots.size
  (word, (document.push { kind := .word reading text }).linkAfter anchor word)

/-- Add an empty list after `anchor`. -/
def insertListAfter (document : Document) (anchor : NodeId) : NodeId × Document :=
  let (list, added) := document.pushList
  (list, added.linkAfter anchor list)

/-- Take a run of siblings out of its list, without removing it. Gives the node before the run,
which is then last where the run was; a run that starts its list can't be taken out. -/
def unlinkRun (document : Document) (first last : NodeId) : Option (NodeId × Document) := do
  let prev ← document.prev? first
  let next := document.next? last
  let list := document.parent? first
  let joined := (document.setNext prev next).joinAfter list next prev
  return (prev, (joined.setPrev first none).setNext last none)

/-- Link a run that was taken out in after `anchor`, and move its nodes to the anchor's list. -/
def spliceRunAfter (document : Document) (anchor first last : NodeId) : Document :=
  let list := document.parent? anchor
  let next := document.next? anchor
  let moved := (document.run first last).foldl (fun moved id => moved.setParent id list) document
  let linked := (moved.setNext anchor (some first)).setPrev first (some anchor)
  (linked.setNext last next).joinAfter list next last

/-- The nodes of a subtree: the node, and all that is in it if it is a list. Goes at most `depth`
lists deep. -/
def subtree (document : Document) : (depth : Nat) → NodeId → List NodeId
  | 0, id => [id]
  | depth + 1, id =>
      match document.first? id with
      | some first => id :: (document.siblingsFrom first).flatMap (document.subtree depth)
      | none => [id]

/-- Remove a node that was taken out, with all that is in it. -/
def free (document : Document) (id : NodeId) : Document :=
  (document.subtree document.chainLimit id).foldl erase document

/-- Remove a run of siblings that was taken out. -/
def freeRun (document : Document) (first last : NodeId) : Document :=
  (document.run first last).foldl free document

/-- Remove a list and its head, but not what was in it. -/
def freeShell (document : Document) (list : NodeId) : Document :=
  match document.first? list with
  | some first => (document.erase first).erase list
  | none => document.erase list

/-- Remove everything but the root and its head. -/
def clear (document : Document) : Document :=
  let freed := (document.children root).foldl free document
  let top := freed.top
  (freed.setNext top none).setLast root top

/-- Classify every word anew. -/
def reclassify (document : Document) (classify : String → TokenClass) : Document :=
  let change (node : Node) : Node :=
    match node.kind with
    | .word _ text => { node with kind := .word (classify text) text }
    | _ => node
  ⟨document.slots.map (·.map change)⟩

/-! ## Checking the links -/

/-- Check the chain of `list` from `id` on, and all lists in it: every node is in its list and
has the one before as `prev`, every list begins with its head and has no other, and ends with its
`last`. Looks at `fuel` nodes at most on any way down and along, and gives `none` if they are not
enough. -/
def checkFrom? (document : Document) : (fuel : Nat) → (list id : NodeId) → Option Bool
  | 0, _, _ => none
  | fuel + 1, list, id =>
      if document.parent? id ≠ some list then some false
      else
        let inside : Option Bool :=
          match document.kind? id with
          | some (.list first _) =>
              if document.isHead first ∧ document.prev? first = none
                  ∧ document.parent? first = some id then
                document.checkFrom? fuel id first
              else some false
          | _ => some true
        match inside with
        | some true =>
            match document.next? id with
            | some next =>
                if document.prev? next ≠ some id ∨ document.isHead next then some false
                else document.checkFrom? fuel list next
            | none => some (document.last? list = some id)
        | stopped => stopped

/-- Check all links, from the root on. -/
def check? (document : Document) : Option Bool :=
  match document.first? root with
  | some first =>
      if document.isHead first ∧ document.prev? first = none
          ∧ document.parent? first = some root then
        document.checkFrom? document.chainLimit root first
      else some false
  | none => some false

/-- Whether all links agree. -/
def isConsistent (document : Document) : Bool := document.check? = some true

end Document

end LiveStack
