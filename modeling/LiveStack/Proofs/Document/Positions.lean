import LiveStack.Proofs.Document.Outlining

/-!
# Positions in order

The nodes of a document are the places where a cursor can stand, and they have an order: a list
begins with its head, and a nested list comes behind all that is in it. In an arranged document this
order goes through every node but the root once, and what comes before or after a node in it can be
told from the links around the node: forward, one goes into a list that is in the way and out of one
that ends; back, into a list that one stands on, and out in front of one that begins.
-/

namespace LiveStack

open Relation

mutual

/-- The positions at a node: a list comes behind those in it. -/
def Outline.positions : Outline → List NodeId
  | .head id => [id]
  | .word id _ _ => [id]
  | .list id items => positionsAll items ++ [id]

/-- The positions at some nodes, one after the other. -/
def Outline.positionsAll : List Outline → List NodeId
  | [] => []
  | item :: rest => item.positions ++ positionsAll rest

end

namespace Document

/-- The positions in a document, in order. -/
def positions (document : Document) : List NodeId := Outline.positionsAll document.outline

/-- The node a step forward leads to: the next one, or the head of a list there; at the end of a
list, the list. -/
def forth? (document : Document) (id : NodeId) : Option NodeId :=
  ((document.next? id).map fun next => (document.first? next).getD next).or
    (document.enclosing? id)

/-- The node a step back leads to: from a list its last child; else the one before; at the front of
a list, the one before the list. -/
def back? (document : Document) (id : NodeId) : Option NodeId :=
  (document.last? id).or
    ((document.prev? id).or ((document.enclosing? id).bind document.prev?))

/-- A node between those that the steps back and forth lead to. -/
def Between (document : Document) (before : Option NodeId) (id : NodeId) (after : Option NodeId) :
    Prop :=
  document.back? id = before ∧ document.forth? id = after

end Document

/-- The positions at the nodes `ids`: each comes behind those in it. -/
inductive Contents.Ordered (kids : Contents) : List NodeId → List NodeId → Prop
  | nil : Ordered kids [] []
  | cons {id : NodeId} {ids inner later : List NodeId} (inside : Ordered kids (kids id) inner)
      (rest : Ordered kids ids later) : Ordered kids (id :: ids) (inner ++ id :: later)

namespace Document

variable {document : Document} {kids : Contents} {list id : NodeId}
  {ids positions front : List NodeId} {items : List Outline}

/-! ## What is in a node -/

section
variable (arranged : document.Arranged kids [])
include arranged

/-- The head of a list is first in it, and nothing is in any other node. -/
theorem Arranged.first?_eq (id : NodeId) : document.first? id = (kids id).head? := by
  cases known : document.isList id with
  | true => exact arranged.first?_of_isList known
  | false =>
      rw [arranged.plain known]
      simpa [isList] using known

theorem Arranged.last?_eq (id : NodeId) : document.last? id = (kids id).getLast? := by
  cases known : document.isList id with
  | true => exact arranged.last?_of_isList known
  | false =>
      rw [arranged.plain known, last?]
      rw [isList, first?] at known
      split
      · next kind =>
          rw [kind] at known
          cases known
      · rfl

/-- The first node in any other holds nothing. -/
theorem Arranged.first?_of_head? {head : NodeId} (first : (kids id).head? = some head) :
    document.first? head = none := by
  have kind : document.kind? head = some .head :=
    (arranged.heads (List.mem_of_mem_head? first)).2 first
  rw [first?, kind]

omit arranged in
/-- A node with nothing in it, in front of others. -/
theorem ordered_leaf (bare : kids id = []) (rest : kids.Ordered ids positions) :
    kids.Ordered (id :: ids) (id :: positions) := by
  have inside : kids.Ordered (kids id) [] := by
    rw [bare]
    exact .nil
  exact .cons inside rest

/-- What an outline shows is in order. -/
theorem Outlined.ordered (shown : document.Outlined kids ids items) :
    kids.Ordered ids (Outline.positionsAll items) := by
  induction shown with
  | nil => exact .nil
  | head kind _ ih => exact ordered_leaf (arranged.plain (by rw [isList, first?, kind]; rfl)) ih
  | word kind _ ih => exact ordered_leaf (arranged.plain (by rw [isList, first?, kind]; rfl)) ih
  | list kind inside rest ih ih' =>
      rw [Outline.positionsAll, Outline.positions, List.append_assoc]
      exact .cons ih ih'

end

/-! ## The order -/

/-- The positions at some nodes are these nodes and all that is in them. -/
theorem mem_of_ordered (ordered : kids.Ordered ids positions) :
    id ∈ positions ↔ ∃ start ∈ ids, ReflTransGen kids.Holds start id := by
  induction ordered with
  | nil => simp
  | @cons first ids inner later inside rest ih ih' =>
      have down : ReflTransGen kids.Holds first id ↔
          id = first ∨ ∃ start ∈ kids first, ReflTransGen kids.Holds start id := by
        rw [ReflTransGen.cases_head_iff, eq_comm]
        rfl
      rw [List.mem_append, List.mem_cons, ih, ih', List.exists_mem_cons_iff, down,
        or_left_comm, or_assoc]

/-- They end with the last of the nodes. -/
theorem getLast?_of_ordered (ordered : kids.Ordered ids positions) :
    positions.getLast? = ids.getLast? := by
  induction ordered with
  | nil => rfl
  | cons inside rest ih ih' =>
      rw [List.getLast?_append, List.getLast?_cons, List.getLast?_cons, ih', Option.some_or]

section
variable (arranged : document.Arranged kids [])
include arranged

/-- They begin with the first of the nodes, or with its head if that is a list. -/
theorem head?_of_ordered (ordered : kids.Ordered ids positions) :
    positions.head? = ids.head?.map fun id => (document.first? id).getD id := by
  induction ordered with
  | nil => rfl
  | @cons id ids inner later inside rest ih ih' =>
      rw [List.head?_append, ih, List.head?_cons, List.head?_cons, Option.map_some,
        arranged.first?_eq id]
      cases first : (kids id).head? with
      | none => rfl
      | some head =>
          rw [Option.map_some, arranged.first?_of_head? first]
          rfl

/-- No position comes twice. -/
theorem nodup_of_ordered (ordered : kids.Ordered ids positions)
    (split : kids list = front ++ ids) : positions.Nodup := by
  induction ordered generalizing list front with
  | nil => exact List.nodup_nil
  | @cons id ids inner later inside rest ih ih' =>
      have held : id ∈ kids list := by simp [split]
      have behind {start : NodeId} (mem : start ∈ ids) : start ∈ kids list := by simp [split, mem]
      have fresh : id ∉ ids := by
        have nodup := arranged.nodup list
        rw [split, List.nodup_append] at nodup
        exact (List.nodup_cons.1 nodup.2.1).1
      -- What is in `id`, and `id` itself, is apart from all that is behind it.
      have apart {other : NodeId} (down : ReflTransGen kids.Holds id other) : other ∉ later := by
        rw [mem_of_ordered rest]
        rintro ⟨start, mem, reaches⟩
        exact fresh (arranged.apart_of_mem held (behind mem) down reaches ▸ mem)
      have inner' := ih (show kids id = [] ++ kids id from rfl)
      have later' := ih' (show kids list = (front ++ [id]) ++ ids by simp [split])
      refine List.nodup_append.2 ⟨inner', List.nodup_cons.2 ⟨apart .refl, later'⟩, ?_⟩
      rintro other mem _ mem' rfl
      obtain ⟨start, within, reaches⟩ := (mem_of_ordered inside).1 mem
      rcases List.mem_cons.1 mem' with rfl | mem'
      · exact arranged.acyclic within reaches
      · exact apart (.head within reaches) mem'

/-- In this order, a position is between those that the steps back and forth lead to. -/
theorem threaded_of_ordered (ordered : kids.Ordered ids positions)
    (split : kids list = front ++ ids) :
    Threaded document.Between
      (front.getLast?.or (((some list).filter (· ≠ root)).bind document.prev?)) positions
      ((some list).filter (· ≠ root)) := by
  induction ordered generalizing list front with
  | nil => trivial
  | @cons id ids inner later inside rest ih ih' =>
      have held : id ∈ kids list := by simp [split]
      have prev := arranged.prev? split
      have next := arranged.next? split
      have outer : document.enclosing? id = (some list).filter (· ≠ root) := by
        rw [enclosing?, arranged.parent? held]
      refine threaded_append.2 ⟨?_, ⟨?_, ?_⟩, ?_⟩
      · have within := ih (show kids id = [] ++ kids id from rfl)
        have self : (some id).filter (· ≠ root) = some id := by
          simpa using arranged.ne_root held
        rw [self, List.getLast?_nil, Option.none_or, Option.bind_some, prev] at within
        cases last : front.getLast? with
        | some before =>
            rw [last] at within
            exact within
        | none =>
            -- The head of a list has nothing in it.
            obtain rfl := List.getLast?_eq_none_iff.1 last
            have isHead : (kids list).head? = some id := by
              rw [split]
              rfl
            have first := arranged.first?_of_head? isHead
            rw [arranged.first?_eq, List.head?_eq_none_iff] at first
            rw [first] at inside
            cases inside
            trivial
      · rw [back?, arranged.last?_eq id, ← getLast?_of_ordered inside, prev, outer]
      · rw [forth?, next, outer, ← head?_of_ordered arranged rest]
      · have behind := ih' (show kids list = (front ++ [id]) ++ ids by simp [split])
        rwa [List.getLast?_concat, Option.some_or] at behind

/-- The positions in a document are its nodes but the root, each once, and each between those that
the steps back and forth lead to. -/
theorem Arranged.in_order : document.positions.Nodup ∧
    (∀ id, id ∈ document.positions ↔ id ∈ document.live ∧ id ≠ root) ∧
    Threaded document.Between none document.positions none := by
  have ordered : kids.Ordered (kids root) document.positions :=
    arranged.outline_outlined.ordered arranged
  have whole : kids root = [] ++ kids root := rfl
  refine ⟨nodup_of_ordered arranged ordered whole, fun id => ?_, ?_⟩
  · rw [mem_of_ordered ordered, mem_live]
    constructor
    · rintro ⟨start, mem, reaches⟩
      refine ⟨arranged.live_of_reaches (arranged.live_of_mem mem) reaches, ?_⟩
      rintro rfl
      exact arranged.acyclic mem reaches
    · rintro ⟨live, differs⟩
      obtain ⟨start, mem, reaches⟩ := arranged.reached live
      rw [List.mem_singleton.1 mem, ReflTransGen.cases_head_iff] at reaches
      exact reaches.resolve_left (Ne.symm differs)
  · exact threaded_of_ordered arranged ordered whole

/-- The first position is the head of the top level. -/
theorem Arranged.head?_positions : document.positions.head? = some document.top := by
  obtain ⟨head, rest, split, -, first⟩ := arranged.exists_head arranged.rooted
  have isHead : (kids root).head? = some head := by rw [split, List.head?_cons]
  rw [Document.positions, head?_of_ordered arranged (arranged.outline_outlined.ordered arranged),
    isHead, Option.map_some, arranged.first?_of_head? isHead, top, first]
  rfl

end

end Document

end LiveStack
