import LiveStack.Proofs.Document.Reach

/-!
# Arrangements

An arrangement says what is in each list of a document, the head first. A document is arranged so
if its links say the same, and if every node that has not been removed is in a list, is the root,
or is one of some loose nodes, which a change has taken out and has not put back yet.

Since a node is in one list only, and the root and the loose nodes are in none, the lists form
trees. Nothing of this is asked for; it follows by counting (`Walk`).
-/

namespace LiveStack

open Relation

/-- What is in each list, the head first. -/
abbrev Contents := NodeId → List NodeId

/-- The list has the node in it. -/
def Contents.Holds (kids : Contents) (list id : NodeId) : Prop := id ∈ kids list

namespace Document

/-- The links of a document say what `kids` says; the nodes in `loose` are in no list. -/
structure Arranged (document : Document) (kids : Contents) (loose : List NodeId) : Prop where
  /-- A list knows its first and its last node. -/
  ends : ∀ {list first last}, document.kind? list = some (.list first last) →
    (kids list).head? = some first ∧ (kids list).getLast? = some last
  plain : ∀ {id}, document.isList id = false → kids id = []
  chained : ∀ list, document.Chained (some list) none (kids list) none
  nodup : ∀ list, (kids list).Nodup
  /-- The head of a list is first in it, and no other node in it is one. -/
  heads : ∀ {list id}, id ∈ kids list →
    (document.kind? id = some .head ↔ (kids list).head? = some id)
  rooted : document.isList root = true
  unlinked : document.links? root = some ⟨none, none, none⟩
  loosened : ∀ id ∈ loose, document.Live id ∧ document.kind? id ≠ some .head ∧ id ≠ root
  free : ∀ start ∈ root :: loose, ∀ list, ¬ kids.Holds list start
  reached : ∀ {id}, document.Live id → ∃ start ∈ root :: loose, ReflTransGen kids.Holds start id

variable {document : Document} {kids : Contents} {loose : List NodeId} {list id : NodeId}

theorem isList_iff : document.isList id = true ↔
    ∃ first last, document.kind? id = some (.list first last) := by
  rw [isList, first?]
  split <;> simp_all

theorem live_of_isList (isList : document.isList id = true) : document.Live id := by
  obtain ⟨first, last, kind⟩ := isList_iff.1 isList
  exact live_of_kind? kind

/-- No more nodes than slots. -/
theorem length_le_of_live {ids : List NodeId} (nodup : ids.Nodup)
    (live : ∀ id ∈ ids, document.Live id) : ids.length ≤ document.slots.size := by
  have inside : ids ⊆ List.range document.slots.size := fun id mem =>
    List.mem_range.2 (lt_size_of_live (live id mem))
  have := (List.subperm_of_subset nodup inside).length_le
  rwa [List.length_range] at this

namespace Arranged

variable (arranged : document.Arranged kids loose)

include arranged

/-! ## Where a node is -/

theorem isList_of_mem (mem : id ∈ kids list) : document.isList list = true := by
  by_contra other
  rw [arranged.plain (by simpa using other)] at mem
  cases mem

theorem live_of_mem (mem : id ∈ kids list) : document.Live id :=
  (arranged.chained list).live mem

/-- A node is in one list only. -/
theorem single : Relator.LeftUnique kids.Holds := by
  intro list list' id mem mem'
  obtain ⟨_, _, links⟩ := (arranged.chained list).links?_of_mem mem
  obtain ⟨_, _, links'⟩ := (arranged.chained list').links?_of_mem mem'
  rw [links] at links'
  cases links'
  rfl

theorem links? {front back : List NodeId} (split : kids list = front ++ id :: back) :
    document.links? id = some ⟨front.getLast?, back.head?, some list⟩ := by
  have chained := arranged.chained list
  rw [split] at chained
  simpa using chained.links?

theorem prev? {front back : List NodeId} (split : kids list = front ++ id :: back) :
    document.prev? id = front.getLast? := by
  rw [prev?_eq, arranged.links? split]
  rfl

theorem next? {front back : List NodeId} (split : kids list = front ++ id :: back) :
    document.next? id = back.head? := by
  rw [next?_eq, arranged.links? split]
  rfl

theorem parent? (mem : id ∈ kids list) : document.parent? id = some list := by
  obtain ⟨front, back, split⟩ := List.append_of_mem mem
  rw [parent?_eq, arranged.links? split]
  rfl

theorem first?_of_isList (isList : document.isList list = true) :
    document.first? list = (kids list).head? := by
  obtain ⟨first, last, kind⟩ := isList_iff.1 isList
  rw [(arranged.ends kind).1, first?, kind]

theorem first?_of_cons {head : NodeId} {rest : List NodeId} (split : kids list = head :: rest) :
    document.first? list = some head := by
  have known := arranged.isList_of_mem (show head ∈ kids list by simp [split])
  rw [arranged.first?_of_isList known, split, List.head?_cons]

theorem last?_of_isList (isList : document.isList list = true) :
    document.last? list = (kids list).getLast? := by
  obtain ⟨first, last, kind⟩ := isList_iff.1 isList
  rw [(arranged.ends kind).2, last?, kind]

/-- A list begins with its head. -/
theorem exists_head (isList : document.isList list = true) :
    ∃ head rest, kids list = head :: rest ∧ document.kind? head = some .head ∧
      document.first? list = some head := by
  obtain ⟨first, last, kind⟩ := isList_iff.1 isList
  obtain ⟨rest, split⟩ := List.head?_eq_some_iff.1 (arranged.ends kind).1
  have mem : first ∈ kids list := by simp [split]
  refine ⟨first, rest, split, (arranged.heads mem).2 (arranged.ends kind).1, ?_⟩
  rw [first?, kind]

theorem kind?_ne_head {front back : List NodeId} (split : kids list = front ++ id :: back)
    (behind : front ≠ []) : document.kind? id ≠ some .head := by
  intro head
  have nodup := arranged.nodup list
  have mem : id ∈ kids list := by simp [split]
  have first := (arranged.heads mem).1 head
  obtain ⟨start, front, rfl⟩ := List.exists_cons_of_ne_nil behind
  rw [split] at nodup first
  cases first
  simp at nodup

theorem kind?_ne_head_of_mem {head : NodeId} {rest : List NodeId} (split : kids list = head :: rest)
    (mem : id ∈ rest) : document.kind? id ≠ some .head := by
  obtain ⟨front, back, rfl⟩ := List.append_of_mem mem
  exact arranged.kind?_ne_head (show kids list = (head :: front) ++ id :: back from split) (by simp)

/-- A node that is no head has one before it. -/
theorem exists_before {front back : List NodeId} (split : kids list = front ++ id :: back)
    (notHead : document.kind? id ≠ some .head) : ∃ prev, front.getLast? = some prev := by
  cases front with
  | nil =>
      refine absurd ((arranged.heads (show id ∈ kids list by simp [split])).2 ?_) notHead
      rw [split]
      rfl
  | cons first rest => exact ⟨_, List.getLast?_cons⟩

theorem ne_root (mem : id ∈ kids list) : id ≠ root := by
  rintro rfl
  exact arranged.free root List.mem_cons_self list mem

/-- A list that is in a list is not the root, so it can be stepped out of. -/
theorem enclosing?_of_mem {outer : NodeId} (mem : id ∈ kids list) (held : list ∈ kids outer) :
    document.enclosing? id = some list := by
  rw [enclosing?, arranged.parent? mem, Option.filter_some,
    if_pos (by simpa using arranged.ne_root held)]

theorem notMem_loose (mem : id ∈ kids list) : id ∉ loose := fun outside =>
  arranged.free id (List.mem_cons_of_mem _ outside) list mem

/-! ## Where links lead -/

theorem mem_of_prev? {other : NodeId} (mem : id ∈ kids list)
    (prev : document.prev? id = some other) :
    other ∈ kids list ∧ document.kind? id ≠ some .head := by
  obtain ⟨front, back, split⟩ := List.append_of_mem mem
  rw [arranged.prev? split] at prev
  have mem := List.mem_of_mem_getLast? prev
  exact ⟨split ▸ List.mem_append_left _ mem,
    arranged.kind?_ne_head split (List.ne_nil_of_mem mem)⟩

theorem mem_of_next? {other : NodeId} (mem : id ∈ kids list)
    (next : document.next? id = some other) :
    other ∈ kids list ∧ document.kind? other ≠ some .head := by
  obtain ⟨front, back, split⟩ := List.append_of_mem mem
  rw [arranged.next? split] at next
  obtain ⟨back, rfl⟩ := List.head?_eq_some_iff.1 next
  have split : kids list = (front ++ [id]) ++ other :: back := by simp [split]
  exact ⟨by simp [split], arranged.kind?_ne_head split (by simp)⟩

theorem mem_of_first? {other : NodeId} (first : document.first? list = some other) :
    other ∈ kids list := by
  rw [arranged.first?_of_isList (by rw [isList, first]; rfl)] at first
  exact List.mem_of_mem_head? first

theorem mem_of_last? {other : NodeId} (last : document.last? list = some other) :
    other ∈ kids list := by
  have known : document.isList list = true := by
    rw [last?] at last
    split at last
    · next kind => exact isList_iff.2 ⟨_, _, kind⟩
    · cases last
  rw [arranged.last?_of_isList known] at last
  exact List.mem_of_mem_getLast? last

theorem ne_root_of_enclosing? {outer : NodeId} (mem : id ∈ kids list)
    (enclosing : document.enclosing? id = some outer) : list = outer ∧ outer ≠ root := by
  rw [enclosing?, arranged.parent? mem, Option.filter_eq_some_iff] at enclosing
  obtain ⟨same, differs⟩ := enclosing
  exact ⟨Option.some.inj same, by simpa using differs⟩

/-! ## Ways down -/

theorem live_of_start {start : NodeId} (mem : start ∈ root :: loose) : document.Live start := by
  rcases List.mem_cons.1 mem with rfl | mem
  · exact live_of_isList arranged.rooted
  · exact (arranged.loosened start mem).1

/-- A node that is neither the root nor loose is in a list. -/
theorem exists_list_of_placed (live : document.Live id) (differs : id ≠ root)
    (placed : id ∉ loose) : ∃ list, id ∈ kids list := by
  obtain ⟨start, mem, reaches⟩ := arranged.reached live
  cases reaches with
  | refl => exact absurd mem (by simp [differs, placed])
  | tail _ held => exact ⟨_, held⟩

theorem live_of_reaches {other : NodeId} (live : document.Live id)
    (reaches : ReflTransGen kids.Holds id other) : document.Live other := by
  cases reaches with
  | refl => exact live
  | tail _ mem => exact arranged.live_of_mem mem

/-- No way down is longer than the document has slots. -/
theorem walk_lt {start : NodeId} {count : Nat} (mem : start ∈ root :: loose)
    (walk : Walk kids.Holds start count id) : count < document.slots.size := by
  refine Walk.lt_of_bounded arranged.single (arranged.free start mem) (fun _ _ walk => ?_) walk
  exact lt_size_of_live (arranged.live_of_reaches (arranged.live_of_start mem) walk.reaches)

/-- No list is in itself, however deep. -/
theorem acyclic (mem : id ∈ kids list) : ¬ ReflTransGen kids.Holds id list := by
  obtain ⟨start, outside, reaches⟩ := arranged.reached
    (live_of_isList (arranged.isList_of_mem mem))
  obtain ⟨count, walk⟩ := Walk.of_reaches reaches
  exact walk.irreflexive arranged.single (arranged.free start outside) mem

theorem ne_of_mem (mem : id ∈ kids list) : id ≠ list := by
  rintro rfl
  exact arranged.acyclic mem .refl

/-! ## Ways along -/

theorem length_le (list : NodeId) : (kids list).length ≤ document.slots.size :=
  length_le_of_live (arranged.nodup list) fun _ mem => arranged.live_of_mem mem

theorem siblingsFrom {front back : List NodeId} (split : kids list = front ++ id :: back) :
    document.siblingsFrom id = id :: back := by
  have chained := arranged.chained list
  have length := arranged.length_le list
  rw [split] at chained length
  refine chain_of_chained (chained_append.1 chained).2 ?_
  rw [List.length_append] at length
  exact Nat.le_trans (Nat.le_add_left _ _) length

theorem children (isList : document.isList list = true) :
    document.children list = (kids list).tail := by
  obtain ⟨head, rest, split, -, first⟩ := arranged.exists_head isList
  have next := arranged.next? (show kids list = [] ++ head :: rest from split)
  rw [Document.children, first, Option.bind_some, next, split]
  cases rest with
  | nil => rfl
  | cons child rest =>
      exact arranged.siblingsFrom (show kids list = [head] ++ child :: rest from split)

/-- The order of the loose nodes makes no difference. -/
theorem of_mem_iff {loose' : List NodeId} (same : ∀ id, id ∈ loose' ↔ id ∈ loose) :
    document.Arranged kids loose' := by
  have starts : ∀ id, id ∈ root :: loose' ↔ id ∈ root :: loose := by simp [same]
  constructor
  case ends => exact arranged.ends
  case plain => exact arranged.plain
  case chained => exact arranged.chained
  case nodup => exact arranged.nodup
  case heads => exact arranged.heads
  case rooted => exact arranged.rooted
  case unlinked => exact arranged.unlinked
  case loosened => exact fun id mem => arranged.loosened id ((same id).1 mem)
  case free => exact fun id mem => arranged.free id ((starts id).1 mem)
  case reached =>
    intro id live
    obtain ⟨start, mem, reaches⟩ := arranged.reached live
    exact ⟨start, (starts start).2 mem, reaches⟩

/-- What the words say makes no difference. -/
theorem alike {document' : Document} (links : ∀ id, document'.links? id = document.links? id)
    (lists : ∀ {id first last}, document'.kind? id = some (.list first last) ↔
      document.kind? id = some (.list first last))
    (heads : ∀ {id}, document'.kind? id = some .head ↔ document.kind? id = some .head) :
    document'.Arranged kids loose := by
  have isList : ∀ {id}, document'.isList id = document.isList id := by
    intro id
    rw [Bool.eq_iff_iff, isList_iff, isList_iff]
    simp only [lists]
  have live : ∀ {id}, document'.Live id ↔ document.Live id := by
    simp only [live_iff_links?, links, implies_true]
  constructor
  case ends => exact fun kind => arranged.ends (lists.1 kind)
  case plain => exact fun notList => arranged.plain (isList ▸ notList)
  case chained => exact fun list => (arranged.chained list).congr fun id _ => links id
  case nodup => exact arranged.nodup
  case heads => exact fun mem => heads.trans (arranged.heads mem)
  case rooted => exact isList ▸ arranged.rooted
  case unlinked => exact links root ▸ arranged.unlinked
  case loosened =>
    intro id mem
    rw [live, Ne, heads]
    exact arranged.loosened id mem
  case free => exact arranged.free
  case reached => exact fun alive => arranged.reached (live.1 alive)

theorem reclassify (classify : String → TokenClass) :
    (document.reclassify classify).Arranged kids loose :=
  arranged.alike (fun _ => links?_reclassify classify)
    (kind?_reclassify_iff classify fun _ _ => NodeKind.noConfusion)
    (kind?_reclassify_iff classify fun _ _ => NodeKind.noConfusion)

end Arranged

/-- An empty document holds the head of the root. -/
theorem arranged_empty :
    Arranged .empty (fun list => if list = root then [root + 1] else []) [] := by
  -- Only the root and its head are there, so each case is about these two.
  have live : ∀ {id}, Document.empty.Live id → id = root ∨ id = root + 1 := by
    intro id live
    have near : id < 2 := lt_size_of_live live
    rcases Nat.lt_succ_iff_lt_or_eq.1 near with near | rfl
    · exact .inl (Nat.lt_one_iff.1 near)
    · exact .inr rfl
  have atRoot : Document.empty.kind? root = some (.list (root + 1) (root + 1)) := rfl
  have atHead : Document.empty.kind? (root + 1) = some .head := rfl
  constructor
  case ends =>
    intro list first last kind
    rcases live (live_of_kind? kind) with rfl | rfl
    · cases atRoot.symm.trans kind
      exact ⟨rfl, rfl⟩
    · cases atHead.symm.trans kind
  case plain =>
    intro id notList
    refine if_neg fun same => ?_
    subst same
    cases notList
  case chained =>
    intro list
    rcases eq_or_ne list root with rfl | differs
    · rw [if_pos rfl]
      exact ⟨rfl, True.intro⟩
    · rw [if_neg differs]
      exact True.intro
  case nodup =>
    intro list
    split <;> simp
  case heads =>
    intro list id mem
    split at mem
    · next same =>
        rw [List.mem_singleton.1 mem, if_pos same]
        exact iff_of_true atHead rfl
    · cases mem
  case rooted => rfl
  case unlinked => rfl
  case loosened =>
    intro id mem
    cases mem
  case free =>
    intro start mem list held
    rw [Contents.Holds, List.mem_singleton.1 mem] at held
    split at held
    · cases List.mem_singleton.1 held
    · cases held
  case reached =>
    intro id alive
    refine ⟨root, List.mem_cons_self, ?_⟩
    rcases live alive with rfl | rfl
    · exact .refl
    · exact .single (by rw [Contents.Holds, if_pos rfl, List.mem_singleton])

end Document

end LiveStack
