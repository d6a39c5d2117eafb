import Mathlib.Data.List.TakeWhile
import LiveStack.Proofs.Document.Removal

/-!
# Strict operations

A question about a removed node has an answer, and a chain is followed for so long only. So an
operation on tangled links would go on as if nothing was wrong. Here every operation is written out
once more, step by step, and fails instead: if it reads or changes a node that was removed, or if
one of its loops does not end within as many rounds as there are slots. On an arranged document
none of them fails.
-/

namespace LiveStack

open Relation

namespace Document

variable {α : Type} {document : Document} {kids : Contents} {loose run gone ids : List NodeId}
  {list id other anchor prev first last : NodeId} {parent before : Option NodeId}

/-- An answer about a node, or a change of it, unless the node was removed. -/
def about (document : Document) (id : NodeId) (answer : α) : Option α :=
  if (document.get? id).isSome then some answer else none

theorem about_of_live (live : document.Live id) (answer : α) :
    document.about id answer = some answer := if_pos live

@[simp] theorem live_update (change : Node → Node) :
    (document.update id change).Live other ↔ document.Live other := by
  rw [Live, Live, get?_update]
  split <;> simp

@[simp] theorem live_setPrev : (document.setPrev id parent).Live other ↔ document.Live other :=
  live_update _

@[simp] theorem live_setNext : (document.setNext id parent).Live other ↔ document.Live other :=
  live_update _

@[simp] theorem live_setParent : (document.setParent id parent).Live other ↔ document.Live other :=
  live_update _

@[simp] theorem live_setLast : (document.setLast id last).Live other ↔ document.Live other :=
  live_update _

@[simp] theorem live_joinAfter {next : Option NodeId} :
    (document.joinAfter parent next last).Live other ↔ document.Live other := by
  cases next with
  | some next => exact live_setPrev
  | none =>
      cases parent with
      | some list => exact live_setLast
      | none => exact Iff.rfl

namespace Strict

/-! ## Following a chain -/

/-- The siblings from a node on, up to the first to stop at. -/
def walk (document : Document) (stop : NodeId → Bool) :
    (count : Nat) → Option NodeId → Option (List NodeId)
  | _, none => some []
  | 0, some _ => none
  | count + 1, some id =>
      if stop id then some [id]
      else do
        let next ← document.about id (document.next? id)
        let rest ← walk document stop count next
        return id :: rest

/-- A node and all siblings after it. -/
def siblingsFrom (document : Document) (id : NodeId) : Option (List NodeId) :=
  walk document (fun _ => false) document.chainLimit (some id)

/-- The siblings from one node to another. -/
def runOf (document : Document) (first last : NodeId) : Option (List NodeId) :=
  walk document (· = last) document.chainLimit (some first)

/-- The children of a list without its head. -/
def children (document : Document) (list : NodeId) : Option (List NodeId) := do
  match ← document.about list (document.first? list) with
  | none => return []
  | some first =>
      match ← document.about first (document.next? first) with
      | none => return []
      | some child => siblingsFrom document child

theorem walk_of_chained {stop : NodeId → Bool} {count : Nat}
    (chained : document.Chained parent before ids none) (enough : ids.length ≤ count) :
    walk document stop count ids.head? =
      some (ids.takeWhile (!stop ·) ++ (ids.drop (ids.takeWhile (!stop ·)).length).take 1) := by
  induction ids generalizing before count with
  | nil => cases count <;> rfl
  | cons id rest ih =>
      cases count with
      | zero => cases enough
      | succ count =>
          rw [List.head?_cons, walk]
          by_cases here : stop id = true
          · simp [here]
          · obtain ⟨links, there⟩ := chained
            have next : document.next? id = rest.head? := by
              rw [next?_eq, links, Option.bind_some, Option.or_none]
            rw [if_neg here, about_of_live (live_of_links? links), next]
            simp [here, ih there (Nat.le_of_succ_le_succ enough)]

theorem siblingsFrom_of_chained (chained : document.Chained parent before ids none)
    (nodup : ids.Nodup) (starts : ids.head? = some first) :
    siblingsFrom document first = some ids := by
  have length := length_le_of_live nodup fun id mem => chained.live mem
  have whole : ids.takeWhile (fun _ => true) = ids := List.takeWhile_eq_self_iff.2 fun _ _ => rfl
  rw [siblingsFrom, chainLimit, ← starts, walk_of_chained chained length]
  simp [whole]

theorem runOf_of_chained (chained : document.Chained parent before run none) (nodup : run.Nodup)
    (starts : run.head? = some first) (ends : run.getLast? = some last) :
    runOf document first last = some run := by
  have length := length_le_of_live nodup fun id mem => chained.live mem
  have whole := run_of_chained nodup chained starts ends
  rw [Document.run, Document.siblingsFrom_of_chained nodup chained starts] at whole
  rw [runOf, chainLimit, ← starts, walk_of_chained chained length]
  simpa using whole

/-- Following a chain to a node ends on that node if it is there. -/
theorem exists_runOf (chained : document.Chained parent before ids none) (nodup : ids.Nodup)
    (starts : ids.head? = some first) :
    ∃ passed, runOf document first last = some passed ∧
      (passed.getLast? = some last ↔ last ∈ ids) := by
  have length := length_le_of_live nodup fun id mem => chained.live mem
  rw [runOf, chainLimit, ← starts, walk_of_chained chained length]
  refine ⟨_, rfl, ?_⟩
  by_cases mem : last ∈ ids
  · obtain ⟨front, back, split, notMem⟩ := List.eq_append_cons_of_mem mem
    have passed : ids.takeWhile (fun id => !decide (id = last)) = front := by
      rw [split, List.takeWhile_append_of_pos]
      · simp
      · exact fun id mem => by simpa using ne_of_mem_of_not_mem mem notMem
    rw [passed, split]
    simp
  · have passed : ids.takeWhile (fun id => !decide (id = last)) = ids :=
      List.takeWhile_eq_self_iff.2 fun id mem' => by simpa using ne_of_mem_of_not_mem mem' mem
    rw [passed, List.drop_length, List.take_nil, List.append_nil]
    exact iff_of_false (fun ends => mem (List.mem_of_mem_getLast? ends)) mem

theorem children_eq (arranged : document.Arranged kids loose)
    (isList : document.isList list = true) :
    children document list = some (document.children list) := by
  obtain ⟨head, rest, split, -, first⟩ := arranged.exists_head isList
  have live := arranged.live_of_mem (show head ∈ kids list by simp [split])
  have chained := arranged.chained list
  have nodup := arranged.nodup list
  rw [split] at chained nodup
  rw [children, about_of_live (live_of_isList isList), first, arranged.children isList, split,
    List.tail_cons]
  rw [Option.bind_eq_bind, Option.bind_some]
  show (document.about head (document.next? head)).bind _ = _
  rw [about_of_live live, arranged.next? (show kids list = [] ++ head :: rest from split)]
  cases rest with
  | nil => rfl
  | cons child rest => exact siblingsFrom_of_chained chained.2 (List.nodup_cons.1 nodup).2 rfl

/-! ## Links -/

/-- Make `last` the end of a chain. -/
def joinAfter (document : Document) (list next : Option NodeId) (last : NodeId) : Option Document :=
  match next, list with
  | some next, _ => document.about next (document.setPrev next (some last))
  | none, some list => document.about list (document.setLast list last)
  | none, none => some document

/-- Link a node without links in after `anchor`. -/
def linkAfter (document : Document) (anchor id : NodeId) : Option Document := do
  let parent ← document.about anchor (document.parent? anchor)
  let next ← document.about anchor (document.next? anchor)
  let linked ← document.about id
    (document.update id fun node => { node with prev := some anchor, next, parent })
  let linked ← linked.about anchor (linked.setNext anchor (some id))
  joinAfter linked parent next id

/-- Add a word after `anchor`. -/
def insertWordAfter (document : Document) (anchor : NodeId) (reading : TokenClass)
    (text : String) : Option (NodeId × Document) := do
  let word := document.slots.size
  let document ← linkAfter (document.push { kind := .word reading text }) anchor word
  return (word, document)

/-- Add an empty list after `anchor`. -/
def insertListAfter (document : Document) (anchor : NodeId) : Option (NodeId × Document) := do
  let (list, added) := document.pushList
  let document ← linkAfter added anchor list
  return (list, document)

/-- Take a run of siblings out of its list. The inner option tells whether it could be taken
out. -/
def unlinkRun (document : Document) (first last : NodeId) : Option (Option (NodeId × Document)) := do
  match ← document.about first (document.prev? first) with
  | none => return none
  | some prev =>
      let next ← document.about last (document.next? last)
      let list ← document.about first (document.parent? first)
      let joined ← document.about prev (document.setNext prev next)
      let joined ← joinAfter joined list next prev
      let joined ← joined.about first (joined.setPrev first none)
      let joined ← joined.about last (joined.setNext last none)
      return some (prev, joined)

/-- Link a run that was taken out in after `anchor`. -/
def spliceRunAfter (document : Document) (anchor first last : NodeId) : Option Document := do
  let list ← document.about anchor (document.parent? anchor)
  let next ← document.about anchor (document.next? anchor)
  let run ← runOf document first last
  let moved ← run.foldlM (fun moved id => moved.about id (moved.setParent id list)) document
  let linked ← moved.about anchor (moved.setNext anchor (some first))
  let linked ← linked.about first (linked.setPrev first (some anchor))
  let linked ← linked.about last (linked.setNext last next)
  joinAfter linked list next last

theorem joinAfter_eq {next : Option NodeId} (follows : ∀ id, next = some id → document.Live id)
    (holds : ∀ id, parent = some id → document.Live id) :
    joinAfter document parent next last = some (document.joinAfter parent next last) := by
  cases next with
  | some next => exact about_of_live (follows next rfl) _
  | none =>
      cases parent with
      | some list => exact about_of_live (holds list rfl) _
      | none => rfl

/-- The nodes to which the links of a node in a list lead have not been removed. -/
theorem live_around (arranged : document.Arranged kids loose) (mem : id ∈ kids list) :
    (∀ other, document.prev? id = some other → document.Live other) ∧
      (∀ other, document.next? id = some other → document.Live other) ∧
        ∀ other, document.parent? id = some other → document.Live other := by
  refine ⟨fun other prev => ?_, fun other next => ?_, fun other parent => ?_⟩
  · exact arranged.live_of_mem (arranged.mem_of_prev? mem prev).1
  · exact arranged.live_of_mem (arranged.mem_of_next? mem next).1
  · rw [arranged.parent? mem] at parent
    obtain rfl := Option.some.inj parent
    exact live_of_isList (arranged.isList_of_mem mem)

theorem linkAfter_eq (arranged : document.Arranged kids loose) (mem : anchor ∈ kids list)
    (live : document.Live id) :
    linkAfter document anchor id = some (document.linkAfter anchor id) := by
  have here := arranged.live_of_mem mem
  obtain ⟨-, follows, holds⟩ := live_around arranged mem
  rw [linkAfter, about_of_live here]
  simp only [Option.bind_eq_bind, Option.bind_some]
  rw [about_of_live here, Option.bind_some, about_of_live live, Option.bind_some,
    about_of_live ((live_update _).2 here), Option.bind_some]
  exact joinAfter_eq (by simpa using follows) (by simpa using holds)

theorem linkAfter_eq_of_grown {document' : Document} {fresh : NodeId} {inner : List NodeId}
    (growth : document.Grown document' fresh inner) (arranged : document.Arranged kids loose)
    (mem : anchor ∈ kids list) :
    linkAfter document' anchor fresh = some (document'.linkAfter anchor fresh) := by
  have known := live_of_isList (arranged.isList_of_mem mem)
  have mem' : anchor ∈ (kids.set fresh inner) list := by
    rwa [Contents.set_of_ne (growth.ne_fresh known)]
  exact linkAfter_eq (growth.result arranged) mem' growth.live_fresh

theorem insertWordAfter_eq (arranged : document.Arranged kids loose) (mem : anchor ∈ kids list)
    (reading : TokenClass) (text : String) : insertWordAfter document anchor reading text =
      some (document.insertWordAfter anchor reading text) := by
  rw [insertWordAfter, linkAfter_eq_of_grown (grown_pushWord reading text) arranged mem]
  rfl

theorem insertListAfter_eq (arranged : document.Arranged kids loose) (mem : anchor ∈ kids list) :
    insertListAfter document anchor = some (document.insertListAfter anchor) := by
  show (linkAfter document.pushList.2 anchor document.slots.size).bind _ = _
  rw [linkAfter_eq_of_grown grown_pushList arranged mem]
  rfl

theorem unlinkRun_eq {front back : List NodeId} (arranged : document.Arranged kids loose)
    (parted : Parted front run back prev first last) (split : kids list = front ++ run ++ back) :
    unlinkRun document first last = some (document.unlinkRun first last) := by
  have inside : ∀ {id}, id ∈ run → id ∈ kids list := fun mem => by simp [split, mem]
  have liveFirst := arranged.live_of_mem (inside parted.first_mem)
  have liveLast := arranged.live_of_mem (inside parted.last_mem)
  obtain ⟨before, -, holds⟩ := live_around arranged (inside parted.first_mem)
  obtain ⟨-, follows, -⟩ := live_around arranged (inside parted.last_mem)
  rw [unlinkRun, about_of_live liveFirst, Document.unlinkRun]
  cases known : document.prev? first with
  | none => rfl
  | some prev =>
      have livePrev := before prev known
      simp only [Option.bind_eq_bind, Option.bind_some]
      rw [about_of_live liveLast, Option.bind_some, about_of_live liveFirst, Option.bind_some,
        about_of_live livePrev, Option.bind_some,
        joinAfter_eq (by simpa using follows) (by simpa using holds), Option.bind_some,
        about_of_live (by simpa using liveFirst), Option.bind_some,
        about_of_live (by simpa using liveLast), Option.bind_some]
      rfl

theorem setParents_eq (live : ∀ id ∈ ids, document.Live id) :
    ids.foldlM (fun moved id => moved.about id (moved.setParent id parent)) document =
      some (ids.foldl (fun moved id => moved.setParent id parent) document) := by
  induction ids generalizing document with
  | nil => rfl
  | cons id rest ih =>
      rw [List.foldlM_cons, about_of_live (live id List.mem_cons_self)]
      exact ih fun other mem => live_setParent.2 (live other (List.mem_cons_of_mem _ mem))

@[simp] theorem live_setParents :
    (ids.foldl (fun moved id => moved.setParent id parent) document).Live other ↔
      document.Live other := by
  rw [live_iff_kind?, kind?_foldl_setParent, ← live_iff_kind?]

@[simp] theorem live_spliceRunAfter :
    (document.spliceRunAfter anchor first last).Live other ↔ document.Live other := by
  simp [Document.spliceRunAfter]

theorem spliceRunAfter_eq (arranged : document.Arranged kids loose) (mem : anchor ∈ kids list)
    (chained : document.Chained parent before run none) (nodup : run.Nodup)
    (starts : run.head? = some first) (ends : run.getLast? = some last) :
    spliceRunAfter document anchor first last =
      some (document.spliceRunAfter anchor first last) := by
  have here := arranged.live_of_mem mem
  obtain ⟨-, follows, holds⟩ := live_around arranged mem
  have liveFirst := chained.live (List.mem_of_mem_head? starts)
  have liveLast := chained.live (List.mem_of_mem_getLast? ends)
  rw [spliceRunAfter, Document.spliceRunAfter, run_of_chained nodup chained starts ends,
    about_of_live here]
  simp only [Option.bind_eq_bind, Option.bind_some]
  rw [about_of_live here, Option.bind_some, runOf_of_chained chained nodup starts ends,
    Option.bind_some, setParents_eq fun id mem => chained.live mem, Option.bind_some,
    about_of_live (by simpa using here), Option.bind_some,
    about_of_live (by simpa using liveFirst), Option.bind_some,
    about_of_live (by simpa using liveLast), Option.bind_some]
  exact joinAfter_eq (by simpa using follows) (by simpa using holds)

/-! ## Removal -/

/-- Remove a node, after all that is in it. -/
def free : (depth : Nat) → Document → NodeId → Option Document
  | 0, _, _ => none
  | depth + 1, document, id => do
      match ← document.about id (document.first? id) with
      | none => return document.erase id
      | some first =>
          let siblings ← siblingsFrom document first
          let emptied ← siblings.foldlM (free depth) document
          return emptied.erase id

/-- Remove a run of siblings that was taken out. -/
def freeRun (document : Document) (first last : NodeId) : Option Document := do
  let run ← runOf document first last
  run.foldlM (free document.chainLimit) document

/-- Remove a list and its head, but not what was in it. -/
def freeShell (document : Document) (list : NodeId) : Option Document :=
  document.about list (document.freeShell list)

/-- Remove everything but the root and its head. -/
def clear (document : Document) : Option Document := do
  let children ← children document root
  let freed ← children.foldlM (free document.chainLimit) document
  let top ← freed.about root freed.top
  let freed ← freed.about top (freed.setNext top none)
  freed.about root (freed.setLast root top)

/-- What freeing a node does, also when some nodes are gone that it doesn't hold. -/
def Frees (document : Document) (kids : Contents) (depth : Nat) (id : NodeId) : Prop :=
  ∀ gone, (∀ other, ReflTransGen kids.Holds id other → other ∉ gone) →
    ∃ more, free depth (document.without gone) id = some (document.without (gone ++ more)) ∧
      ∀ other, other ∈ more ↔ ReflTransGen kids.Holds id other

theorem foldlM_free {depth : Nat} (each : ∀ id ∈ ids, Frees document kids depth id)
    (nodup : ids.Nodup)
    (disjoint : ∀ {a b other}, a ∈ ids → b ∈ ids → ReflTransGen kids.Holds a other →
      ReflTransGen kids.Holds b other → a = b)
    (apart : ∀ id ∈ ids, ∀ other, ReflTransGen kids.Holds id other → other ∉ gone) :
    ∃ more, ids.foldlM (free depth) (document.without gone) =
        some (document.without (gone ++ more)) ∧
      ∀ other, other ∈ more ↔ ∃ id ∈ ids, ReflTransGen kids.Holds id other := by
  induction ids generalizing gone with
  | nil => exact ⟨[], by simp, by simp⟩
  | cons first rest ih =>
      obtain ⟨fresh, nodup⟩ := List.nodup_cons.1 nodup
      obtain ⟨more, freed, all⟩ := each first List.mem_cons_self gone
        (apart first List.mem_cons_self)
      -- What the first node held is held by none of the others, so they are read as if it were
      -- there.
      have apart' : ∀ id ∈ rest, ∀ other, ReflTransGen kids.Holds id other →
          other ∉ gone ++ more := by
        intro id mem other reaches held
        rcases List.mem_append.1 held with held | held
        · exact apart id (List.mem_cons_of_mem _ mem) other reaches held
        · have same := disjoint (List.mem_cons_of_mem _ mem) List.mem_cons_self reaches
            ((all other).1 held)
          exact fresh (same ▸ mem)
      obtain ⟨more', freed', all'⟩ := ih (fun id mem => each id (List.mem_cons_of_mem _ mem)) nodup
        (fun mem mem' => disjoint (List.mem_cons_of_mem _ mem) (List.mem_cons_of_mem _ mem')) apart'
      refine ⟨more ++ more', ?_, fun other => ?_⟩
      · rw [List.foldlM_cons, freed]
        exact freed'.trans (by rw [List.append_assoc])
      · rw [List.mem_append, all, all']
        simp

/-- A node is freed with all that it holds. -/
theorem frees {start : NodeId} {count depth : Nat} (arranged : document.Arranged kids loose)
    (mem : start ∈ root :: loose) (walk : Walk kids.Holds start count id)
    (deep : document.slots.size ≤ count + depth) : Frees document kids depth id := by
  induction depth generalizing id count with
  | zero => exact absurd (arranged.walk_lt mem walk) (Nat.not_lt.2 deep)
  | succ depth ih =>
      intro gone apart
      have live : document.Live id :=
        arranged.live_of_reaches (arranged.live_of_start mem) walk.reaches
      have live : (document.without gone).Live id := live_without.2 ⟨apart id .refl, live⟩
      have same : (document.without gone).first? id = document.first? id := by
        rw [first?, first?, kind?_without_of_notMem (apart id .refl)]
      rw [free, about_of_live live, same]
      cases known : document.first? id with
      | none =>
          refine ⟨[id], by rw [without_append]; rfl, fun other => ?_⟩
          rw [ReflTransGen.cases_head_iff]
          simp [Contents.Holds, arranged.holds_nothing known, eq_comm]
      | some first =>
          -- Nothing that the node holds is gone, so its children are found as before.
          have chained : (document.without gone).Chained (some id) none (kids id) none :=
            (arranged.chained id).congr fun child held =>
              links?_without_of_notMem (apart child (.single held))
          have starts : (kids id).head? = some first := by
            rw [← arranged.first?_of_isList (Arranged.isList_of_first? known), known]
          obtain ⟨more, freed, all⟩ := foldlM_free
            (fun child held => ih (walk.next held) (by omega)) (arranged.nodup id)
            (fun held held' => arranged.apart_of_mem held held')
            (fun child held other reaches => apart other (.head held reaches))
          refine ⟨more ++ [id], ?_, fun other => ?_⟩
          · simp only [Option.bind_eq_bind, Option.bind_some]
            rw [siblingsFrom_of_chained chained (arranged.nodup id) starts, Option.bind_some, freed,
              Option.bind_some, ← List.append_assoc]
            show some ((document.without (gone ++ more)).without [id]) = _
            rw [← without_append]
          · rw [List.mem_append, all, ReflTransGen.cases_head_iff, or_comm]
            rw [List.mem_singleton, eq_comm]
            rfl

theorem foldlM_free_eq (arranged : document.Arranged kids loose) (nodup : ids.Nodup)
    (disjoint : ∀ {a b other}, a ∈ ids → b ∈ ids → ReflTransGen kids.Holds a other →
      ReflTransGen kids.Holds b other → a = b)
    (live : ∀ id ∈ ids, document.Live id) :
    ids.foldlM (free document.chainLimit) document = some (ids.foldl Document.free document) := by
  have each : ∀ id ∈ ids, Frees document kids document.chainLimit id := by
    intro id mem
    obtain ⟨start, outside, reaches⟩ := arranged.reached (live id mem)
    obtain ⟨count, walk⟩ := Walk.of_reaches reaches
    exact frees arranged outside walk (Nat.le_add_left _ _)
  obtain ⟨more, freed, all⟩ := foldlM_free each nodup disjoint fun _ _ _ _ => List.not_mem_nil
  obtain ⟨gone, freed', all'⟩ := arranged.foldl_free_freed nodup disjoint
  rw [freed']
  refine freed.trans (congrArg some (without_congr fun id => ?_))
  rw [List.nil_append, all, all']

theorem freeRun_eq (arranged : document.Arranged kids run) (nodup : run.Nodup)
    (chained : document.Chained parent none run none) (starts : run.head? = some first)
    (ends : run.getLast? = some last) :
    freeRun document first last = some (document.freeRun first last) := by
  have start : ∀ {id}, id ∈ run → id ∈ root :: run := List.mem_cons_of_mem _
  rw [freeRun, runOf_of_chained chained nodup starts ends, Document.freeRun,
    run_of_chained nodup chained starts ends]
  exact foldlM_free_eq arranged nodup
    (fun mem mem' => arranged.apart_of_start (start mem) (start mem'))
    (fun id mem => arranged.live_of_start (start mem))

theorem free_eq (arranged : document.Arranged kids [id]) :
    free document.chainLimit document id = some (document.free id) := by
  have alone : ∀ {other}, other ∈ [id] → other = id := List.mem_singleton.1
  have freed := foldlM_free_eq arranged (List.nodup_singleton id)
    (fun mem mem' _ _ => (alone mem).trans (alone mem').symm)
    (fun other mem => arranged.live_of_start (List.mem_cons_of_mem _ mem))
  simpa only [List.foldlM_cons, List.foldlM_nil, bind_pure, List.foldl_cons, List.foldl_nil]
    using freed

theorem clear_eq (arranged : document.Arranged kids []) :
    clear document = some document.clear := by
  obtain ⟨head, rest, split, -, -⟩ := arranged.exists_head arranged.rooted
  have inside : ∀ {id}, id ∈ rest → id ∈ kids root := fun mem => by simp [split, mem]
  have nodup := arranged.nodup root
  rw [split, List.nodup_cons] at nodup
  have freed := foldlM_free_eq arranged nodup.2
    (fun mem mem' => arranged.apart_of_mem (inside mem) (inside mem'))
    (fun id mem => arranged.live_of_mem (inside mem))
  obtain ⟨gone, emptied, -, rootLeft, headLeft⟩ := arranged.exists_emptied split
  have liveRoot : (document.without gone).Live root :=
    live_without.2 ⟨rootLeft, live_of_isList arranged.rooted⟩
  have liveHead : (document.without gone).Live head :=
    live_without.2 ⟨headLeft, arranged.live_of_mem (show head ∈ kids root by simp [split])⟩
  rw [emptied] at freed
  rw [clear, children_eq arranged arranged.rooted, Document.clear,
    arranged.children arranged.rooted, split, List.tail_cons, emptied]
  simp only [Option.bind_eq_bind, Option.bind_some]
  rw [freed, Option.bind_some, about_of_live liveRoot, Option.bind_some,
    arranged.top_without split rootLeft, about_of_live liveHead, Option.bind_some,
    about_of_live (live_setNext.2 liveRoot)]

end Strict

end Document

end LiveStack
