import LiveStack.Document.Outline
import LiveStack.Proofs.Document.Consistency
import LiveStack.Proofs.Document.Removal

/-!
# What an outline shows

An outline is read off the links with as much fuel as the document has slots. In an arranged
document that is always enough, and the outline shows what is in the lists (`Outlined`). So it can
be taken apart where a list can, and a change that leaves a list and all that is in it alone leaves
that part of the outline alone. Where the list that was changed holds the same again, every node is
what it was and where it was.
-/

namespace LiveStack

open Relation

namespace Document

/-- The items show the nodes `ids`, each with all that is in it. -/
inductive Outlined (document : Document) (kids : Contents) : List NodeId → List Outline → Prop
  | nil : Outlined document kids [] []
  | head {id : NodeId} {ids : List NodeId} {items : List Outline}
      (kind : document.kind? id = some .head) (rest : Outlined document kids ids items) :
      Outlined document kids (id :: ids) (.head id :: items)
  | word {id : NodeId} {ids : List NodeId} {items : List Outline} {reading : TokenClass}
      {text : String} (kind : document.kind? id = some (.word reading text))
      (rest : Outlined document kids ids items) :
      Outlined document kids (id :: ids) (.word id reading text :: items)
  | list {id first last : NodeId} {ids : List NodeId} {inner items : List Outline}
      (kind : document.kind? id = some (.list first last))
      (inside : Outlined document kids (kids id) inner)
      (rest : Outlined document kids ids items) :
      Outlined document kids (id :: ids) (.list id inner :: items)

variable {document document' : Document} {kids kids' : Contents} {list id : NodeId}
  {ids ids' front back : List NodeId} {items items' : List Outline}

namespace Outlined

/-- There is one way to show nodes. -/
theorem unique (shown : document.Outlined kids ids items)
    (shown' : document.Outlined kids ids items') : items = items' := by
  induction shown generalizing items' with
  | nil =>
      cases shown'
      rfl
  | head kind _ ih =>
      cases shown' with
      | head _ rest => rw [ih rest]
      | word kind' => cases kind.symm.trans kind'
      | list kind' => cases kind.symm.trans kind'
  | word kind _ ih =>
      cases shown' with
      | head kind' => cases kind.symm.trans kind'
      | word kind' rest =>
          cases kind.symm.trans kind'
          rw [ih rest]
      | list kind' => cases kind.symm.trans kind'
  | list kind _ _ ih ih' =>
      cases shown' with
      | head kind' => cases kind.symm.trans kind'
      | word kind' => cases kind.symm.trans kind'
      | list _ inside rest => rw [ih inside, ih' rest]

theorem append (shown : document.Outlined kids ids items)
    (shown' : document.Outlined kids ids' items') :
    document.Outlined kids (ids ++ ids') (items ++ items') := by
  induction shown with
  | nil => exact shown'
  | head kind _ ih => exact .head kind ih
  | word kind _ ih => exact .word kind ih
  | list kind inside _ _ ih => exact .list kind inside ih

/-- Items that are parted show nodes that are parted. -/
theorem exists_append (shown : document.Outlined kids ids (items ++ items')) :
    ∃ front back, ids = front ++ back ∧ document.Outlined kids front items ∧
      document.Outlined kids back items' := by
  induction items generalizing ids with
  | nil => exact ⟨[], ids, rfl, .nil, shown⟩
  | cons item items ih =>
      cases shown with
      | head kind rest =>
          obtain ⟨front, back, rfl, first, second⟩ := ih rest
          exact ⟨_ :: front, back, rfl, .head kind first, second⟩
      | word kind rest =>
          obtain ⟨front, back, rfl, first, second⟩ := ih rest
          exact ⟨_ :: front, back, rfl, .word kind first, second⟩
      | list kind inside rest =>
          obtain ⟨front, back, rfl, first, second⟩ := ih rest
          exact ⟨_ :: front, back, rfl, .list kind inside first, second⟩

/-- The items stand for the nodes, one for one. -/
theorem ids_eq (shown : document.Outlined kids ids items) : items.map Outline.id = ids := by
  induction shown with
  | nil => rfl
  | head _ _ ih | word _ _ ih => rw [List.map_cons, ih, Outline.id]
  | list _ _ _ _ ih => rw [List.map_cons, ih, Outline.id]

/-- A document that has the same nodes in the same lists, as far as they are shown, is shown in the
same way. -/
theorem congr (shown : document.Outlined kids ids items)
    (same : ∀ start ∈ ids, ∀ id, ReflTransGen kids.Holds start id →
      document'.kind? id = document.kind? id ∧ kids' id = kids id) :
    document'.Outlined kids' ids items := by
  induction shown with
  | nil => exact .nil
  | head kind _ ih =>
      refine .head ?_ (ih fun start mem => same start (List.mem_cons_of_mem _ mem))
      rw [(same _ List.mem_cons_self _ .refl).1, kind]
  | word kind _ ih =>
      refine .word ?_ (ih fun start mem => same start (List.mem_cons_of_mem _ mem))
      rw [(same _ List.mem_cons_self _ .refl).1, kind]
  | @list id first last ids inner items kind _ _ ih ih' =>
      obtain ⟨kinds, contents⟩ := same id List.mem_cons_self id .refl
      refine .list (kinds.trans kind) ?_
        (ih' fun start mem => same start (List.mem_cons_of_mem _ mem))
      rw [contents]
      exact ih fun start mem other reaches =>
        same id List.mem_cons_self other (.head mem reaches)

end Outlined

namespace Arranged

variable (arranged : document.Arranged kids [])

include arranged

theorem readFrom_outlined {fuel count : Nat} (walk : Walk document.Points root count id)
    (enough : document.slots.size ≤ count + fuel) (split : kids list = front ++ id :: back) :
    document.Outlined kids (id :: back) (document.readFrom fuel (some id)) := by
  -- Reading follows the links that lead away from the root, as the walk did up to here.
  induction fuel generalizing count id list front back with
  | zero => exact absurd (arranged.points_lt walk) (Nat.not_lt.2 enough)
  | succ fuel ih =>
      have next := arranged.next? split
      have mem : id ∈ kids list := by simp [split]
      have rest : document.Outlined kids back (document.readFrom fuel (document.next? id)) := by
        rw [next]
        cases back with
        | nil => cases fuel <;> exact .nil
        | cons other back =>
            have split' : kids list = (front ++ [id]) ++ other :: back := by simp [split]
            exact ih (walk.next (.inr next)) (by omega) split'
      obtain ⟨⟨holds, prev, after, parent⟩, found⟩ :=
        Option.isSome_iff_exists.1 (arranged.live_of_mem mem)
      have kind : document.kind? id = some holds := by rw [kind?, found, Option.map_some]
      rw [Document.next?, found, Option.bind_some] at rest
      rw [readFrom, found]
      cases holds with
      | head => exact .head kind rest
      | word reading text => exact .word kind rest
      | list first last =>
          have first' : document.first? id = some first := by rw [first?, kind]
          obtain ⟨inner, split', -⟩ := arranged.exists_first first'
          refine .list kind ?_ rest
          rw [split']
          exact ih (walk.next (.inl first')) (by omega)
            (show kids id = [] ++ first :: inner from split')

theorem outlineFrom_outlined (split : kids list = front ++ id :: back) :
    document.Outlined kids (id :: back) (document.outlineFrom id) := by
  have mem : id ∈ kids list := by simp [split]
  obtain ⟨count, walk⟩ := Walk.of_reaches
    (arranged.live_iff_points.1 (arranged.live_of_mem mem))
  exact arranged.readFrom_outlined walk (Nat.le_add_left _ _) split

/-- The outline of a document shows what is in the root. -/
theorem outline_outlined : document.Outlined kids (kids root) document.outline := by
  obtain ⟨head, rest, split, -, first⟩ := arranged.exists_head arranged.rooted
  rw [outline, Document.top, first, Option.getD_some, split]
  exact arranged.outlineFrom_outlined (show kids root = [] ++ head :: rest from split)

/-- A list with nothing in it shows its head. -/
theorem outlined_head {head : NodeId} (only : kids list = [head]) :
    document.Outlined kids (kids list) [.head head] := by
  have mem : head ∈ kids list := by
    rw [only]
    exact List.mem_singleton_self _
  have kind : document.kind? head = some .head := (arranged.heads mem).2 (by rw [only]; rfl)
  rw [only]
  exact .head kind .nil

end Arranged

/-! ## What a change leaves alone -/

/-- What a node holds is apart from what the others of its list hold. -/
theorem Arranged.apart_of_split (arranged : document.Arranged kids [])
    (split : kids list = front ++ id :: back) {start third : NodeId} (mem : start ∈ front ++ back)
    (reaches : ReflTransGen kids.Holds start third) : ¬ ReflTransGen kids.Holds id third := by
  intro reaches'
  have held : start ∈ kids list := by
    rw [split]
    rcases List.mem_append.1 mem with mem | mem <;> simp [mem]
  have nodup := arranged.nodup list
  rw [split, List.nodup_middle, List.nodup_cons] at nodup
  obtain rfl := arranged.apart_of_mem held (by simp [split]) reaches reaches'
  exact nodup.1 mem

/-- What is true of all nodes but those that one of a list holds is true of the list, and of all
that is beside the one. -/
theorem Arranged.above_and_beside (arranged : document.Arranged kids [])
    (split : kids list = front ++ id :: back) {kept : NodeId → Prop}
    (spared : ∀ other, document.Live other → ¬ ReflTransGen kids.Holds id other → kept other) :
    kept list ∧
      ∀ start ∈ front ++ back, ∀ other, ReflTransGen kids.Holds start other → kept other := by
  have held : id ∈ kids list := by simp [split]
  have live := live_of_isList (arranged.isList_of_mem held)
  refine ⟨spared list live (arranged.acyclic held), fun start mem other reaches => ?_⟩
  have mem' : start ∈ kids list := by
    rw [split]
    rcases List.mem_append.1 mem with mem | mem <;> simp [mem]
  have live' := arranged.live_of_reaches (arranged.live_of_mem mem') reaches
  exact spared other live' (arranged.apart_of_split split mem reaches)

/-- The other nodes of a list that is changed are shown as before. -/
theorem Spares.outlined {run : List NodeId} (spares : document.Spares document' kids kids' list run)
    (arranged : document.Arranged kids []) (inside : ∀ id ∈ run, id ∈ kids list)
    (others : ∀ id ∈ ids, id ∈ kids list ∧ id ∉ run) (shown : document.Outlined kids ids items) :
    document'.Outlined kids' ids items := by
  refine shown.congr fun start mem id reaches => ?_
  obtain ⟨held, out⟩ := others start mem
  refine spares id (arranged.live_of_reaches (arranged.live_of_mem held) reaches) ?_ ?_
  · rintro rfl
    exact arranged.acyclic held reaches
  · intro other mem' reaches'
    exact out (arranged.apart_of_mem held (inside other mem') reaches reaches' ▸ mem')

/-- Where nothing was taken out, the nodes of the list are shown as before. -/
theorem Spares.outlined_of_nil (spares : document.Spares document' kids kids' list [])
    (arranged : document.Arranged kids []) (held : ∀ id ∈ ids, id ∈ kids list)
    (shown : document.Outlined kids ids items) : document'.Outlined kids' ids items :=
  spares.outlined arranged (List.forall_mem_nil _)
    (fun id mem => ⟨held id mem, List.not_mem_nil⟩) shown

/-! ## The same nodes -/

/-- The second document has the nodes of the first again: none was added, none was removed, and
each holds what it held and is where it was. -/
structure Restored (document document' : Document) : Prop where
  live : document'.live = document.live
  nodes : ∀ id, document'.get? id = document.get? id

theorem live_eq_of_iff (same : ∀ id, document'.Live id ↔ document.Live id) :
    document'.live = document.live := by
  have nodup (document : Document) : document.live.Nodup := List.nodup_range.filter _
  have sorted (document : Document) : document.live.Pairwise (· < ·) :=
    List.pairwise_lt_range.filter _
  have perm : document'.live.Perm document.live :=
    (List.perm_ext_iff_of_nodup (nodup _) (nodup _)).2 fun id => by
      rw [mem_live, mem_live, same]
  exact perm.eq_of_pairwise (fun _ _ _ _ less more => absurd more (Nat.lt_asymm less)) (sorted _)
    (sorted _)

namespace Spares

variable {prev : NodeId} (spares : document.Spares document' kids kids' list [])
  (contents : kids' list = kids list) (arranged : document.Arranged kids [])
  (arranged' : document'.Arranged kids' [])

include spares contents

theorem contents_eq (live : document.Live id) : kids' id = kids id := by
  rcases eq_or_ne id list with rfl | differs
  · exact contents
  · exact (spares id live differs (List.forall_mem_nil _)).2

include arranged arranged'

/-- All that is live is held by the root, and the ways down from there are the same. -/
theorem live_iff : document'.Live id ↔ document.Live id := by
  constructor
  · intro live
    have reaches := arranged'.reached_from_root live
    clear live
    induction reaches with
    | refl => exact live_of_isList arranged.rooted
    | tail _ held ih =>
        rw [Contents.Holds, spares.contents_eq contents ih] at held
        exact arranged.live_of_mem held
  · intro live
    cases arranged.reached_from_root live with
    | refl => exact live_of_isList arranged'.rooted
    | tail down held =>
        have above := arranged.live_of_reaches (live_of_isList arranged.rooted) down
        rw [Contents.Holds, ← spares.contents_eq contents above] at held
        exact arranged'.live_of_mem held

theorem links?_eq (live : document.Live id) : document'.links? id = document.links? id := by
  cases arranged.reached_from_root live with
  | refl => rw [arranged'.unlinked, arranged.unlinked]
  | tail down held =>
      have above := arranged.live_of_reaches (live_of_isList arranged.rooted) down
      obtain ⟨before, behind, split⟩ := List.append_of_mem held
      have split' := (spares.contents_eq contents above).trans split
      rw [arranged'.links? split', arranged.links? split]

/-- The list itself has the ends that it had, since those are the ends of what is in it. -/
theorem kind?_eq (mem : prev ∈ kids list) (live : document.Live id) :
    document'.kind? id = document.kind? id := by
  rcases eq_or_ne id list with rfl | differs
  · obtain ⟨first, last, kind⟩ := isList_iff.1 (arranged.isList_of_mem mem)
    obtain ⟨first', last', kind'⟩ := isList_iff.1 (arranged'.isList_of_mem (contents ▸ mem))
    obtain ⟨starts, stops⟩ := arranged.ends kind
    obtain ⟨starts', stops'⟩ := arranged'.ends kind'
    rw [contents, starts, Option.some.injEq] at starts'
    rw [contents, stops, Option.some.injEq] at stops'
    rw [kind, kind', starts', stops']
  · exact (spares id live differs (List.forall_mem_nil _)).1

/-- Once a list holds what it held, and all else was left alone, the nodes are the same. -/
theorem restored (mem : prev ∈ kids list) : document.Restored document' := by
  have nodes (id : NodeId) : document'.get? id = document.get? id := by
    by_cases live : document.Live id
    · exact get?_eq_of_links? (spares.links?_eq contents arranged arranged' live)
        (spares.kind?_eq contents arranged arranged' mem live)
    · have gone := (spares.live_iff contents arranged arranged').not.2 live
      rw [Live, Option.not_isSome_iff_eq_none] at live gone
      rw [live, gone]
  exact ⟨live_eq_of_iff fun id => by rw [Live, Live, nodes], nodes⟩

end Spares

end Document

end LiveStack
