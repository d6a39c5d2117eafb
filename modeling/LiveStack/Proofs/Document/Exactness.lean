import LiveStack.Document.Outline
import LiveStack.Proofs.Document.Checking
import LiveStack.Proofs.Document.Consistency

/-!
# What passes the check is a tree

Links that lead anywhere need not describe any tree, and links that do can be tangled where the
root does not lead. Here it is said, without the check, when the links between some nodes are those
of a tree (`Forms`): there is an outline, finite as all outlines are, in which every list has in it
what its links say, and which has each of the nodes just once. The check passes just when this is so
for the root and the nodes that the links lead to from the first node in it.
-/

namespace LiveStack

open Relation

namespace Outline

mutual

/-- The node and all nodes in it, each with all that is in it. -/
def parts : Outline → List Outline
  | .head id => [.head id]
  | .word id reading text => [.word id reading text]
  | .list id items => .list id items :: partsAll items

/-- Some nodes and all nodes in them. -/
def partsAll : List Outline → List Outline
  | [] => []
  | item :: rest => item.parts ++ partsAll rest

end

/-- What is in a node. -/
def inner : Outline → List Outline
  | .list _ items => items
  | _ => []

/-- The numbers of a node and of all nodes in it. -/
def ids (tree : Outline) : List NodeId := tree.parts.map id

/-- The numbers of some nodes and of all nodes in them. -/
def idsAll (items : List Outline) : List NodeId := (partsAll items).map id

variable {item part : Outline} {rest : List Outline}

theorem parts_eq (item : Outline) : item.parts = item :: partsAll item.inner := by
  cases item <;> rfl

theorem forall_parts {P : Outline → Prop} : (∀ part ∈ item.parts, P part) ↔
    P item ∧ ∀ part ∈ partsAll item.inner, P part := by
  rw [parts_eq, List.forall_mem_cons]

theorem ids_eq (item : Outline) : item.ids = item.id :: idsAll item.inner := by
  rw [ids, parts_eq, List.map_cons, idsAll]

theorem partsAll_cons :
    partsAll (item :: rest) = item :: (partsAll item.inner ++ partsAll rest) := by
  rw [partsAll, parts_eq, List.cons_append]

theorem forall_partsAll_cons {P : Outline → Prop} : (∀ part ∈ partsAll (item :: rest), P part) ↔
    P item ∧ (∀ part ∈ partsAll item.inner, P part) ∧ ∀ part ∈ partsAll rest, P part := by
  rw [partsAll_cons, List.forall_mem_cons, List.forall_mem_append]

theorem idsAll_cons : idsAll (item :: rest) = item.id :: (idsAll item.inner ++ idsAll rest) := by
  rw [idsAll, partsAll_cons, List.map_cons, List.map_append, idsAll, idsAll]

theorem mem_idsAll {id : NodeId} {items : List Outline} (mem : id ∈ items.map Outline.id) :
    id ∈ idsAll items := by
  induction items with
  | nil => cases mem
  | cons item rest ih =>
      rw [idsAll_cons]
      rcases List.mem_cons.1 mem with rfl | mem
      · exact List.mem_cons_self
      · exact List.mem_cons_of_mem _ (List.mem_append_right _ (ih mem))

theorem nonempty_of_mem_idsAll {id : NodeId} {items : List Outline} (mem : id ∈ idsAll items) :
    items ≠ [] := by
  rintro rfl
  cases mem

theorem nonempty_of_start {items : List Outline} {start : NodeId}
    (starts : (items.map Outline.id).head? = some start) : items ≠ [] := by
  rintro rfl
  cases starts

theorem exists_start {items : List Outline} (nonempty : items ≠ []) :
    ∃ start, (items.map Outline.id).head? = some start := by
  obtain ⟨item, rest, rfl⟩ := List.exists_cons_of_ne_nil nonempty
  exact ⟨item.id, rfl⟩

end Outline

open Outline (partsAll idsAll mem_idsAll nonempty_of_mem_idsAll nonempty_of_start exists_start)

namespace Document

variable {document : Document} {list id start other : NodeId} {prev : Option NodeId}
  {item : Outline} {items rest : List Outline} {count fuel : Nat}

/-! ## What the links say -/

/-- The items are in a list from behind the node `prev` on: each has the list as its list and the
ones around it as siblings; none but the first can be a head; and the list has the final one as
its last. -/
structure Fills (document : Document) (list : NodeId) (prev : Option NodeId)
    (items : List Outline) : Prop where
  chained : document.Chained (some list) prev (items.map Outline.id) none
  heads : ∀ item ∈ items.tail, item.isHead = false
  ends : ∃ item, items.getLast? = some item ∧ document.last? list = some item.id

/-- The items are all that is in a list, which begins with its head. -/
structure Encloses (document : Document) (list : NodeId) (items : List Outline) : Prop where
  begins : ∃ head, items.head? = some (.head head) ∧ document.first? list = some head
  fills : document.Fills list none items

/-- The node is what it is in the outline. -/
def Agrees (document : Document) : Outline → Prop
  | .head id => document.kind? id = some .head
  | .word id reading text => document.kind? id = some (.word reading text)
  | .list id items => document.Encloses id items

/-- The root, and what the links lead to from its first node on, down and along. -/
def Found (document : Document) (id : NodeId) : Prop :=
  id = root ∨ ∃ first, document.first? root = some first ∧ ReflTransGen document.Points first id

/-- The nodes for which this holds form the tree, with the root on top. -/
structure Forms (document : Document) (nodes : NodeId → Prop) (tree : Outline) : Prop where
  root : tree.id = root
  agrees : ∀ part ∈ tree.parts, document.Agrees part
  once : tree.ids.Nodup
  mem : ∀ id, id ∈ tree.ids ↔ nodes id

namespace Agrees

variable (agrees : document.Agrees item)

include agrees

theorem first?_eq : document.first? item.id = (item.inner.map Outline.id).head? := by
  cases item with
  | head id =>
      have kind : document.kind? id = some .head := agrees
      rw [Outline.id, first?, kind]
      rfl
  | word id reading text =>
      have kind : document.kind? id = some (.word reading text) := agrees
      rw [Outline.id, first?, kind]
      rfl
  | list id items =>
      obtain ⟨head, first, known⟩ := Encloses.begins agrees
      rw [Outline.id, known, Outline.inner, List.head?_map, first]
      rfl

theorem encloses (nonempty : item.inner ≠ []) : document.Encloses item.id item.inner := by
  cases item with
  | head id => exact absurd rfl nonempty
  | word id reading text => exact absurd rfl nonempty
  | list id items => exact agrees

theorem isHead_eq : document.isHead item.id = item.isHead := by
  cases item with
  | head id => exact decide_eq_true agrees
  | word id reading text =>
      have kind : document.kind? id = some (.word reading text) := agrees
      rw [Outline.id, isHead, kind]
      rfl
  | list id items =>
      obtain ⟨head, -, first⟩ := Encloses.begins agrees
      refine decide_eq_false fun kind => ?_
      rw [first?, show document.kind? id = some .head from kind] at first
      cases first

end Agrees

namespace Fills

theorem tail (fills : document.Fills list prev (item :: rest)) (more : rest ≠ []) :
    document.Fills list (some item.id) rest where
  chained := fills.chained.2
  heads other mem := fills.heads other (List.mem_of_mem_tail mem)
  ends := by
    obtain ⟨last, known, ends⟩ := fills.ends
    refine ⟨last, ?_, ends⟩
    rwa [List.getLast?_cons, List.getLast?_eq_some_getLast more, Option.getD_some,
      ← List.getLast?_eq_some_getLast more] at known

theorem links (fills : document.Fills list prev (item :: rest)) :
    document.links? item.id = some ⟨prev, (rest.map Outline.id).head?, some list⟩ := by
  have here := fills.chained.1
  rwa [Option.or_none] at here

end Fills

/-- A fact about items that fill a list, from what follows for the first of them when the fact is
known for what is in it and for those behind it. -/
@[elab_as_elim]
theorem fills_induct {motive : NodeId → Option NodeId → List Outline → Prop}
    (step : ∀ {list prev item rest}, document.Fills list prev (item :: rest) →
      (∀ part ∈ partsAll (item :: rest), document.Agrees part) →
      (item.inner ≠ [] → motive item.id none item.inner) →
      (rest ≠ [] → motive list (some item.id) rest) → motive list prev (item :: rest))
    (items : List Outline) {list : NodeId} {prev : Option NodeId}
    (fills : document.Fills list prev items)
    (agrees : ∀ part ∈ partsAll items, document.Agrees part) : motive list prev items := by
  match items, fills, agrees with
  | [], fills, _ =>
      obtain ⟨_, none, _⟩ := fills.ends
      cases none
  | .head id :: rest, fills, agrees | .word id reading text :: rest, fills, agrees =>
      refine step fills agrees (fun nonempty => absurd rfl nonempty) fun more => ?_
      exact fills_induct step rest (fills.tail more) (Outline.forall_partsAll_cons.1 agrees).2.2
  | .list id inner :: rest, fills, agrees =>
      obtain ⟨here, within, behind⟩ := Outline.forall_partsAll_cons.1 agrees
      refine step fills agrees (fun nonempty => ?_) fun more => ?_
      · exact fills_induct step inner (here.encloses nonempty).fills within
      · exact fills_induct step rest (fills.tail more) behind

/-! ## The check follows the tree -/

/-- What is in a node begins with its head. -/
theorem Agrees.heads (agrees : document.Agrees item)
    (within : ∀ part ∈ partsAll item.inner, document.Agrees part)
    (starts : (item.inner.map Outline.id).head? = some other) :
    document.Heads item.id other := by
  obtain ⟨⟨head, known, -⟩, fills⟩ := agrees.encloses (nonempty_of_start starts)
  obtain ⟨rest, split⟩ := List.head?_eq_some_iff.1 known
  rw [split] at starts within fills
  cases starts
  have kind : document.Agrees (.head head) := (Outline.forall_partsAll_cons.1 within).1
  have links := fills.links
  exact ⟨decide_eq_true kind, by rw [prev?_eq, links]; rfl, by rw [parent?_eq, links]; rfl⟩

/-- The check goes down to what is in a node. -/
theorem Agrees.follows (agrees : document.Agrees item)
    (within : ∀ part ∈ partsAll item.inner, document.Agrees part)
    (starts : (item.inner.map Outline.id).head? = some other) :
    document.Follows item.id other :=
  .down (agrees.first?_eq.trans starts) (agrees.heads within starts)

/-- The check passes for all that is in a node, if it does from what is first there on. -/
theorem Agrees.exists_checkInside? (agrees : document.Agrees item)
    (within : ∀ part ∈ partsAll item.inner, document.Agrees part)
    (passes : item.inner ≠ [] → ∀ start, (item.inner.map Outline.id).head? = some start →
      ∃ fuel, document.checkFrom? fuel item.id start = some true) :
    ∃ fuel, document.checkInside? fuel item.id = some true := by
  by_cases empty : item.inner = []
  · exact ⟨0, by rw [checkInside?, agrees.first?_eq, empty]; rfl⟩
  · obtain ⟨first, starts⟩ := exists_start empty
    obtain ⟨fuel, passed⟩ := passes empty first starts
    refine ⟨fuel, ?_⟩
    simp only [checkInside?, agrees.first?_eq, starts, if_pos (agrees.heads within starts), passed]

namespace Fills

variable (fills : document.Fills list prev (item :: rest))
include fills

theorem parent? : document.parent? item.id = some list := by
  rw [parent?_eq, fills.links]
  rfl

theorem next? : document.next? item.id = (rest.map Outline.id).head? := by
  rw [next?_eq, fills.links]
  rfl

/-- The next node knows the one before it, and is no head. -/
theorem before (behind : ∀ part ∈ partsAll rest, document.Agrees part)
    (starts : (rest.map Outline.id).head? = some other) :
    document.prev? other = some item.id ∧ document.isHead other = false ∧
      document.parent? other = some list := by
  cases rest with
  | nil => cases starts
  | cons next rest =>
      cases starts
      have fills' := fills.tail (List.cons_ne_nil next rest)
      have agrees := (Outline.forall_partsAll_cons.1 behind).1
      refine ⟨?_, ?_, fills'.parent?⟩
      · rw [prev?_eq, fills'.links]
        rfl
      · rw [agrees.isHead_eq]
        exact fills.heads next List.mem_cons_self

/-- The check goes along to the next node. -/
theorem follows (behind : ∀ part ∈ partsAll rest, document.Agrees part)
    (starts : (rest.map Outline.id).head? = some other) : document.Follows item.id other := by
  obtain ⟨prev, notHead, parent⟩ := fills.before behind starts
  exact .along (fills.next?.trans starts) prev notHead fills.parent? parent

omit fills

/-- From the first of some items, the check comes to all of them, and to all that is in them. -/
theorem reaches (fills : document.Fills list prev items)
    (agrees : ∀ part ∈ partsAll items, document.Agrees part) :
    ∀ start, (items.map Outline.id).head? = some start →
      ∀ id ∈ idsAll items, ReflTransGen document.Follows start id := by
  refine fills_induct ?_ items fills agrees
  intro list prev item rest fills agrees within behind start starts id mem
  cases starts
  obtain ⟨here, inside, beyond⟩ := Outline.forall_partsAll_cons.1 agrees
  rw [Outline.idsAll_cons, List.mem_cons, List.mem_append] at mem
  rcases mem with rfl | mem | mem
  · exact .refl
  · have nonempty := nonempty_of_mem_idsAll mem
    obtain ⟨first, starts⟩ := exists_start nonempty
    exact .head (here.follows inside starts) (within nonempty first starts id mem)
  · have nonempty := nonempty_of_mem_idsAll mem
    obtain ⟨next, starts⟩ := exists_start nonempty
    exact .head (fills.follows beyond starts) (behind nonempty next starts id mem)

/-- No node is twice among items and what is in them, since the check would come to it in two
ways. -/
theorem nodup (unheld : document.parent? root = none) (fills : document.Fills list prev items)
    (agrees : ∀ part ∈ partsAll items, document.Agrees part) :
    ∀ start count, (items.map Outline.id).head? = some start →
      Walk document.Follows root count start → (idsAll items).Nodup := by
  refine fills_induct ?_ items fills agrees
  intro list prev item rest fills agrees within behind start count starts walk
  cases starts
  obtain ⟨here, inside, beyond⟩ := Outline.forall_partsAll_cons.1 agrees
  have free := Follows.free unheld
  -- the check goes down to what is in the item, and along to what is behind it
  have down : item.inner ≠ [] → ∃ first, (item.inner.map Outline.id).head? = some first ∧
      document.prev? first = none ∧ document.Follows item.id first ∧
      ∀ id ∈ idsAll item.inner, ReflTransGen document.Follows first id := by
    intro nonempty
    obtain ⟨first, starts⟩ := exists_start nonempty
    exact ⟨first, starts, (here.heads inside starts).2.1, here.follows inside starts,
      (here.encloses nonempty).fills.reaches inside first starts⟩
  have along : rest ≠ [] → ∃ next, (rest.map Outline.id).head? = some next ∧
      document.prev? next = some item.id ∧ document.Follows item.id next ∧
      ∀ id ∈ idsAll rest, ReflTransGen document.Follows next id := by
    intro nonempty
    obtain ⟨next, starts⟩ := exists_start nonempty
    exact ⟨next, starts, (fills.before beyond starts).1, fills.follows beyond starts,
      (fills.tail nonempty).reaches beyond next starts⟩
  rw [Outline.idsAll_cons, List.nodup_cons, List.nodup_append, List.mem_append]
  refine ⟨?_, ?_, ?_, ?_⟩
  · rintro (mem | mem)
    · obtain ⟨first, -, -, follows, reaches⟩ := down (nonempty_of_mem_idsAll mem)
      exact walk.irreflexive Follows.single free follows (reaches _ mem)
    · obtain ⟨next, -, -, follows, reaches⟩ := along (nonempty_of_mem_idsAll mem)
      exact walk.irreflexive Follows.single free follows (reaches _ mem)
  · by_cases empty : item.inner = []
    · rw [empty]
      exact List.nodup_nil
    · obtain ⟨first, starts, -, follows, -⟩ := down empty
      exact within empty first (count + 1) starts (walk.next follows)
  · by_cases empty : rest = []
    · rw [empty]
      exact List.nodup_nil
    · obtain ⟨next, starts, -, follows, -⟩ := along empty
      exact behind empty next (count + 1) starts (walk.next follows)
  · rintro id mem _ mem' rfl
    obtain ⟨first, -, noPrev, follows, reaches⟩ := down (nonempty_of_mem_idsAll mem)
    obtain ⟨next, -, before, follows', reaches'⟩ := along (nonempty_of_mem_idsAll mem')
    have same := Walk.eq_of_reaches Follows.single free (walk.next follows) (walk.next follows')
      (reaches id mem) (reaches' id mem')
    rw [same, before] at noPrev
    cases noPrev

/-- The links of items and of what is in them do not lead anywhere else. -/
theorem closed (fills : document.Fills list prev items)
    (agrees : ∀ part ∈ partsAll items, document.Agrees part) :
    ∀ id ∈ idsAll items, ∀ other, document.Points id other → other ∈ idsAll items := by
  refine fills_induct ?_ items fills agrees
  intro list prev item rest fills agrees within behind id mem other points
  rw [Outline.idsAll_cons, List.mem_cons, List.mem_append] at mem ⊢
  rcases mem with rfl | mem | mem
  · rcases points with first | next
    · rw [(Outline.forall_partsAll_cons.1 agrees).1.first?_eq] at first
      exact .inr (.inl (mem_idsAll (List.mem_of_mem_head? first)))
    · rw [fills.next?] at next
      exact .inr (.inr (mem_idsAll (List.mem_of_mem_head? next)))
  · exact .inr (.inl (within (nonempty_of_mem_idsAll mem) id mem other points))
  · exact .inr (.inr (behind (nonempty_of_mem_idsAll mem) id mem other points))

/-- The check passes for what is behind an item, if it does from the next one on. -/
theorem exists_checkBehind? (fills : document.Fills list prev (item :: rest))
    (beyond : ∀ part ∈ partsAll rest, document.Agrees part)
    (passes : rest ≠ [] → ∀ start, (rest.map Outline.id).head? = some start →
      ∃ fuel, document.checkFrom? fuel list start = some true) :
    ∃ fuel, document.checkBehind? fuel list item.id = some true := by
  by_cases empty : rest = []
  · obtain ⟨last, known, ends⟩ := fills.ends
    rw [empty] at known
    cases known
    have ends : document.last? list = some item.id := ends
    exact ⟨0, by simp [checkBehind?, fills.next?, empty, ends]⟩
  · obtain ⟨next, starts⟩ := exists_start empty
    obtain ⟨fuel, passed⟩ := passes empty next starts
    obtain ⟨before, notHead, -⟩ := fills.before beyond starts
    exact ⟨fuel, by simp [checkBehind?, fills.next?, starts, before, notHead, passed]⟩

/-- The check passes for items that fill a list, if it may go on long enough. -/
theorem passes (fills : document.Fills list prev items)
    (agrees : ∀ part ∈ partsAll items, document.Agrees part) :
    ∀ start, (items.map Outline.id).head? = some start →
      ∃ fuel, document.checkFrom? fuel list start = some true := by
  refine fills_induct ?_ items fills agrees
  intro list prev item rest fills agrees within behind start starts
  cases starts
  obtain ⟨here, inside, beyond⟩ := Outline.forall_partsAll_cons.1 agrees
  obtain ⟨fuel, down⟩ := here.exists_checkInside? inside within
  obtain ⟨fuel', along⟩ := fills.exists_checkBehind? beyond behind
  refine ⟨max fuel fuel' + 1, checkFrom?_eq_true_iff.2 ⟨fills.parent?, ?_, ?_⟩⟩
  · exact checkInside?_of_some (checkFrom?_of_le (Nat.le_max_left _ _)) down
  · exact checkBehind?_of_some (checkFrom?_of_le (Nat.le_max_right _ _)) along

end Fills

/-! ## What passes is a tree -/

theorem links?_of_parent? (parent : document.parent? id = some list) :
    document.links? id = some ⟨document.prev? id, document.next? id, some list⟩ := by
  rw [parent?_eq] at parent
  rw [prev?_eq, next?_eq]
  cases links : document.links? id with
  | none =>
      rw [links] at parent
      cases parent
  | some links' =>
      rw [links] at parent
      obtain ⟨prev, next, _⟩ := links'
      cases parent
      rfl

/-- A chain for which the check passes: there are items, from the node on, that fill the list. -/
def Sprouts (document : Document) (list id : NodeId) : Prop :=
  ∃ items, document.Fills list (document.prev? id) items ∧
    (items.map Outline.id).head? = some id ∧ ∀ part ∈ partsAll items, document.Agrees part

section
variable (sprouts : ∀ {list id}, document.checkFrom? fuel list id = some true →
  document.Sprouts list id)
include sprouts

/-- If all that is in a node passes, there is an outline of the node. -/
theorem exists_outline (live : document.Live id)
    (inside : document.checkInside? fuel id = some true) :
    ∃ item : Outline, item.id = id ∧ ∀ part ∈ item.parts, document.Agrees part := by
  obtain ⟨node, found⟩ := Option.isSome_iff_exists.1 live
  have kind : document.kind? id = some node.kind := by rw [kind?, found]; rfl
  cases known : node.kind with
  | head =>
      rw [known] at kind
      exact ⟨.head id, rfl, List.forall_mem_singleton.2 kind⟩
  | word reading text =>
      rw [known] at kind
      exact ⟨.word id reading text, rfl, List.forall_mem_singleton.2 kind⟩
  | list first last =>
      rw [known] at kind
      have begins : document.first? id = some first := by rw [first?, kind]
      simp only [checkInside?, begins] at inside
      split at inside
      · next heads =>
          obtain ⟨items, fills, starts, agrees⟩ := sprouts inside
          rw [heads.2.1] at fills
          obtain ⟨item, rest, rfl⟩ := List.exists_cons_of_ne_nil (nonempty_of_start starts)
          obtain rfl : item.id = first := Option.some.inj starts
          have isHead := (Outline.forall_partsAll_cons.1 agrees).1.isHead_eq.symm.trans heads.1
          -- The first node passed as a head, so the first item is no word and no list.
          cases item with
          | head head =>
              have encloses : document.Encloses id (.head head :: rest) :=
                ⟨⟨head, rfl, begins⟩, fills⟩
              exact ⟨.list id (.head head :: rest), rfl, List.forall_mem_cons.2 ⟨encloses, agrees⟩⟩
          | word => cases isHead
          | list => cases isHead
      · cases inside

end

/-- Where the check passes, there are items that fill the list. -/
theorem sprouts_of_checkFrom? (passed : document.checkFrom? fuel list id = some true) :
    document.Sprouts list id := by
  -- One round passes a node, what is in it and what is behind it: the items behind it are there by
  -- induction, and go behind the one that is made for the node.
  induction fuel generalizing list id with
  | zero => cases passed
  | succ fuel ih =>
      obtain ⟨parent, inside, behind⟩ := checkFrom?_eq_true_iff.1 passed
      obtain ⟨item, rfl, agrees⟩ := exists_outline ih (live_of_parent? parent) inside
      have links := links?_of_parent? parent
      rw [checkBehind?] at behind
      cases next : document.next? item.id with
      | none =>
          simp only [next, Option.some.injEq, decide_eq_true_eq] at behind
          rw [next] at links
          refine ⟨[item], ⟨⟨links, trivial⟩, List.forall_mem_nil _, item, rfl, behind⟩, rfl, ?_⟩
          rwa [Outline.partsAll, Outline.partsAll, List.append_nil]
      | some next' =>
          simp only [next] at behind
          split at behind
          · cases behind
          · next right =>
              obtain ⟨prev, notHead⟩ := not_or.1 right
              obtain ⟨rest, fills, starts, agrees'⟩ := ih behind
              rw [not_not.1 prev] at fills
              refine ⟨item :: rest, ⟨⟨?_, fills.chained⟩, ?_, ?_⟩, rfl, ?_⟩
              · rw [links, next, starts]
                rfl
              · obtain ⟨second, rest, rfl⟩ :=
                  List.exists_cons_of_ne_nil (nonempty_of_start starts)
                obtain rfl : second.id = next' := Option.some.inj starts
                refine List.forall_mem_cons.2 ⟨?_, fills.heads⟩
                rw [← (Outline.forall_partsAll_cons.1 agrees').1.isHead_eq]
                exact Bool.eq_false_iff.2 notHead
              · obtain ⟨last, known, ends⟩ := fills.ends
                exact ⟨last, by rw [List.getLast?_cons, known]; rfl, ends⟩
              · rw [Outline.partsAll]
                exact List.forall_mem_append.2 ⟨agrees, agrees'⟩

theorem Follows.points (follows : document.Follows id other) : document.Points id other := by
  cases follows with
  | down first _ => exact .inl first
  | along next _ _ _ _ => exact .inr next

/-- Where nothing is linked behind the root, what is found is all that the links lead to from it.
-/
theorem found_iff (alone : document.next? root = none) :
    document.Found id ↔ ReflTransGen document.Points root id := by
  rw [Found, ReflTransGen.cases_head_iff, eq_comm]
  refine or_congr_right (exists_congr fun first => and_congr_left fun _ => ?_)
  rw [Points, alone]
  exact ⟨.inl, fun points => points.resolve_right nofun⟩

/-! ## The check is total and exact -/

section
variable {tree : Outline} {first : NodeId} (rooted : document.isList root = true)
  (unheld : document.parent? root = none)

include unheld in
/-- Where all in the root passes the check, an outline of the root is the tree of all that is
found. -/
theorem forms_of_agrees (begins : document.first? root = some first) (known : tree.id = root)
    (agrees : ∀ part ∈ tree.parts, document.Agrees part) :
    document.Forms document.Found tree := by
  obtain ⟨here, inside⟩ := Outline.forall_parts.1 agrees
  have starts : (tree.inner.map Outline.id).head? = some first := by
    rw [← here.first?_eq, known, begins]
  have fills := (here.encloses (nonempty_of_start starts)).fills
  have follows : document.Follows root first := known ▸ here.follows inside starts
  have reaches := fills.reaches inside first starts
  refine ⟨known, agrees, ?_, ?_⟩
  · rw [Outline.ids_eq, known, List.nodup_cons]
    refine ⟨fun mem => ?_, fills.nodup unheld inside first 1 starts (Walk.here.next follows)⟩
    exact Walk.here.irreflexive Follows.single (Follows.free unheld) follows (reaches root mem)
  · intro id
    rw [Outline.ids_eq, known, List.mem_cons, Found]
    refine or_congr_right ⟨fun mem => ⟨first, begins, ?_⟩, ?_⟩
    · exact ReflTransGen.mono (fun _ _ => Follows.points) _ _ (reaches id mem)
    · rintro ⟨first', begins', reaches'⟩
      obtain rfl := Option.some.inj (begins.symm.trans begins')
      induction reaches' with
      | refl => exact mem_idsAll (List.mem_of_mem_head? starts)
      | tail _ points ih => exact fills.closed inside _ ih _ points

include rooted unheld in
/-- Only the nodes that are found can form a tree. -/
theorem found_iff_of_forms {nodes : NodeId → Prop} (forms : document.Forms nodes tree) :
    document.Found id ↔ nodes id := by
  obtain ⟨first, begins⟩ := Option.isSome_iff_exists.1 rooted
  rw [← forms.mem, (forms_of_agrees unheld begins forms.root forms.agrees).mem]

include rooted in
/-- The check passes just if all passes that is in the root. -/
theorem checkWithin?_eq : document.checkWithin? fuel = document.checkInside? fuel root := by
  obtain ⟨first, begins⟩ := Option.isSome_iff_exists.1 rooted
  simp only [checkWithin?, checkInside?, begins]

end

/-- The check of the links is total and exact. Let every number that a node mentions be that of a
node which has not been removed, and let the root be a list that is in no list. However the links
lead otherwise, the check comes to an end, asking for no node that is not there; and it passes
just if the root and what the links lead to from the first node in it form a tree.

The root is in no list, and the check does not ask what is linked behind it. Where nothing is, the
tree has all that the links lead to from the root. -/
theorem check_is_total_and_exact (wired : document.Wired) (rooted : document.isList root = true)
    (unheld : document.parent? root = none) :
    (∀ fuel, document.chainLimit ≤ fuel →
      Strict.check document fuel = some document.isConsistent) ∧
      (document.isConsistent = true ↔ ∃ tree, document.Forms document.Found tree) ∧
      (document.next? root = none → (document.isConsistent = true ↔
        ∃ tree, document.Forms (ReflTransGen document.Points root) tree)) := by
  suffices exact : (∀ fuel, document.chainLimit ≤ fuel →
      Strict.check document fuel = some document.isConsistent) ∧
      (document.isConsistent = true ↔ ∃ tree, document.Forms document.Found tree) by
    refine ⟨exact.1, exact.2, fun alone => ?_⟩
    have same : document.Found = ReflTransGen document.Points root :=
      funext fun _ => propext (found_iff alone)
    rw [exact.2, same]
  have live := live_of_isList rooted
  obtain ⟨first, begins⟩ := Option.isSome_iff_exists.1 rooted
  obtain ⟨answer, answers⟩ := exists_checkWithin? rooted unheld
  have answered : document.isConsistent = answer :=
    isConsistent_of_check? (check?_eq.trans (answers _ le_rfl))
  rw [answered]
  refine ⟨fun fuel enough => ?_, ?_, ?_⟩
  · rw [Strict.check_eq wired live, answers fuel enough]
  · rintro rfl
    have passed := answers _ le_rfl
    rw [checkWithin?_eq rooted] at passed
    obtain ⟨tree, known, agrees⟩ := exists_outline sprouts_of_checkFrom? live passed
    exact ⟨tree, forms_of_agrees unheld begins known agrees⟩
  · rintro ⟨tree, known, agrees, -, -⟩
    obtain ⟨here, inside⟩ := Outline.forall_parts.1 agrees
    obtain ⟨fuel, passed⟩ := here.exists_checkInside? inside fun nonempty =>
      (here.encloses nonempty).fills.passes inside
    -- More fuel gives the same answer, so what passes with some fuel passes with the limit too.
    have passed' := checkInside?_of_some (checkFrom?_of_le (Nat.le_max_left _ document.chainLimit))
      passed
    rw [known, ← checkWithin?_eq rooted, answers _ (Nat.le_max_right _ _)] at passed'
    exact Option.some.inj passed'

/-- A word in the root, with a link on from it. -/
def oneWord (next : Option NodeId) : Document :=
  ⟨#[some { kind := .list 1 2 }, some { kind := .head, next := some 2, parent := some 0 },
    some { kind := .word .unknown "x", prev := some 1, next, parent := some 0 }]⟩

/-- A word that has the head of its list behind it: the check ends, and there is no tree. -/
theorem check_of_one_word_in_a_loop : (oneWord (some 1)).Wired ∧
    (oneWord (some 1)).isList root = true ∧ (oneWord (some 1)).parent? root = none ∧
    (∀ fuel, 3 ≤ fuel → Strict.check (oneWord (some 1)) fuel = some false) ∧
    ¬ ∃ tree, (oneWord (some 1)).Forms (oneWord (some 1)).Found tree := by
  have wired : (oneWord (some 1)).Wired := by decide
  obtain ⟨total, exact, -⟩ := check_is_total_and_exact wired (by decide) (by decide)
  have fails : (oneWord (some 1)).isConsistent = false := by decide
  rw [fails] at total exact
  exact ⟨wired, by decide, by decide, total, fun tree => Bool.noConfusion (exact.2 tree)⟩

/-- A word that is inserted behind the root passes the check, which does not come to it. But it is
reached from the root, and in no tree. -/
theorem check_of_word_behind_root :
    let document := (Document.empty.insertWordAfter root .unknown "x").2
    document.Wired ∧ document.isList root = true ∧ document.parent? root = none ∧
      document.isConsistent = true ∧
      ¬ ∃ tree, document.Forms (ReflTransGen document.Points root) tree := by
  intro document
  have rooted : document.isList root = true := by decide
  have unheld : document.parent? root = none := by decide
  refine ⟨by decide, rooted, unheld, by decide, ?_⟩
  rintro ⟨tree, forms⟩
  have reached : ReflTransGen document.Points root 2 := .single (.inr (by decide))
  rcases (found_iff_of_forms rooted unheld forms).2 reached with same | ⟨first, begins, reaches⟩
  · cases same
  · -- The first node in the root is its head, which leads nowhere.
    have head : document.first? root = some 1 := by decide
    obtain rfl := Option.some.inj (head.symm.trans begins)
    rcases ReflTransGen.cases_head reaches with same | ⟨other, first | next, -⟩
    · cases same
    · cases first
    · cases next

end Document

end LiveStack
