import LiveStack.Proofs.Document.Operations

/-!
# Removing nodes

To free a node is to remove it with all that can be reached from it. What is read of the document
on the way is read of nodes that have not been removed yet, so freeing some nodes one after the
other removes the same as reading all that they hold first. What is left is arranged as before, as
long as nothing that is left was held by what is gone.
-/

namespace LiveStack

open Relation

/-- The contents of the lists that are left. -/
def Contents.without (kids : Contents) (gone : List NodeId) : Contents := fun list =>
  if list ∈ gone then [] else kids list

namespace Contents

variable {kids : Contents} {gone : List NodeId} {list id : NodeId}

theorem without_of_notMem (left : list ∉ gone) : kids.without gone list = kids list := if_neg left

theorem mem_without : id ∈ kids.without gone list ↔ id ∈ kids list ∧ list ∉ gone := by
  rw [without]
  split <;> simp_all

end Contents

namespace Document

variable {document : Document} {kids : Contents} {loose gone ids : List NodeId}
  {list id other : NodeId}

/-- The document without some nodes. -/
def without (document : Document) (gone : List NodeId) : Document := gone.foldl erase document

theorem get?_without : (document.without gone).get? id =
    if id ∈ gone then none else document.get? id := by
  induction gone generalizing document with
  | nil => rfl
  | cons first rest ih =>
      show ((document.erase first).without rest).get? id = _
      rw [ih, get?_erase]
      by_cases same : id = first
      · simp [same]
      · simp [same]

@[simp] theorem size_without : (document.without gone).slots.size = document.slots.size := by
  induction gone generalizing document with
  | nil => rfl
  | cons first rest ih => exact ih.trans size_erase

theorem get?_without_of_notMem (left : id ∉ gone) :
    (document.without gone).get? id = document.get? id := by
  rw [get?_without, if_neg left]

theorem kind?_without_of_notMem (left : id ∉ gone) :
    (document.without gone).kind? id = document.kind? id := by
  rw [kind?, kind?, get?_without_of_notMem left]

theorem links?_without_of_notMem (left : id ∉ gone) :
    (document.without gone).links? id = document.links? id := by
  rw [links?, links?, get?_without_of_notMem left]

theorem live_without : (document.without gone).Live id ↔ id ∉ gone ∧ document.Live id := by
  rw [Live, Live, get?_without]
  split <;> simp_all

theorem without_congr {gone' : List NodeId} (same : ∀ id, id ∈ gone ↔ id ∈ gone') :
    document.without gone = document.without gone' :=
  ext_of_get? (by simp) fun id => by simp only [get?_without, same]

theorem without_append {gone' : List NodeId} :
    document.without (gone ++ gone') = (document.without gone).without gone' :=
  List.foldl_append

theorem update_without (change : Node → Node) :
    (document.without gone).update id change = (document.update id change).without gone :=
  ext_of_get? (by simp) fun other => by
    simp only [get?_update, get?_without]
    by_cases mem : other ∈ gone <;> simp [mem]

/-- The second document is the first without the loose nodes and all that they hold. -/
def Freed (document freed : Document) (kids : Contents) (loose : List NodeId) : Prop :=
  ∃ gone, freed = document.without gone ∧
    ∀ id, id ∈ gone ↔ ∃ start ∈ loose, ReflTransGen kids.Holds start id

namespace Arranged

/-! ## What a node holds -/

/-- Of two nodes that lead to a third, one leads to the other. -/
theorem comparable (arranged : document.Arranged kids loose) {third : NodeId}
    (reaches : ReflTransGen kids.Holds id third) (reaches' : ReflTransGen kids.Holds other third) :
    ReflTransGen kids.Holds id other ∨ ReflTransGen kids.Holds other id := by
  induction reaches with
  | refl => exact .inr reaches'
  | tail front held ih =>
      cases reaches' with
      | refl => exact .inl (front.tail held)
      | tail front' held' =>
          obtain rfl := arranged.single held held'
          exact ih front'

/-- What two nodes of one list hold is apart. -/
theorem apart_of_mem (arranged : document.Arranged kids loose) (mem : id ∈ kids list)
    (mem' : other ∈ kids list) {third : NodeId} (reaches : ReflTransGen kids.Holds id third)
    (reaches' : ReflTransGen kids.Holds other third) : id = other := by
  have down : ∀ {a b}, a ∈ kids list → b ∈ kids list → ReflTransGen kids.Holds a b → a = b := by
    intro a b mem mem' reaches
    cases reaches with
    | refl => rfl
    | tail front held =>
        obtain rfl := arranged.single mem' held
        exact absurd front (arranged.acyclic mem)
  rcases arranged.comparable reaches reaches' with down' | down'
  · exact down mem mem' down'
  · exact (down mem' mem down').symm

/-- What the root and the loose nodes hold is apart. -/
theorem apart_of_start (arranged : document.Arranged kids loose) {start start' third : NodeId}
    (mem : start ∈ root :: loose) (mem' : start' ∈ root :: loose)
    (reaches : ReflTransGen kids.Holds start third)
    (reaches' : ReflTransGen kids.Holds start' third) : start = start' := by
  have down : ∀ {a b}, b ∈ root :: loose → ReflTransGen kids.Holds a b → a = b := by
    intro a b mem reaches
    cases reaches with
    | refl => rfl
    | tail front held => exact absurd held (arranged.free b mem _)
  rcases arranged.comparable reaches reaches' with down' | down'
  · exact down mem' down'
  · exact (down mem down').symm

/-- What the root holds, no loose node holds. -/
theorem apart_of_root (arranged : document.Arranged kids loose) {start : NodeId}
    (mem : start ∈ loose) (reaches : ReflTransGen kids.Holds root id) :
    ¬ ReflTransGen kids.Holds start id := by
  intro reaches'
  have same := arranged.apart_of_start (List.mem_cons_of_mem _ mem) List.mem_cons_self reaches'
    reaches
  exact (arranged.loosened start mem).2.2 same

/-- Nothing is loose, so all is held by the root. -/
theorem reached_from_root (arranged : document.Arranged kids []) (live : document.Live id) :
    ReflTransGen kids.Holds root id := by
  obtain ⟨start, mem, reaches⟩ := arranged.reached live
  rwa [List.mem_singleton.1 mem] at reaches

theorem holds_nothing (arranged : document.Arranged kids loose)
    (notList : document.first? id = none) : kids id = [] :=
  arranged.plain (by rw [Document.isList, notList]; rfl)

/-- The children of a list are what is in it behind its head. In other nodes there is nothing. -/
theorem children_eq_tail (arranged : document.Arranged kids loose) (list : NodeId) :
    document.children list = (kids list).tail := by
  cases known : document.isList list with
  | true => exact arranged.children known
  | false =>
      have nothing : document.first? list = none := by simpa [Document.isList] using known
      rw [arranged.plain known, Document.children, nothing]
      rfl

theorem isList_of_first? {first : NodeId} (known : document.first? id = some first) :
    document.isList id = true := by
  rw [Document.isList, known]
  rfl

theorem siblingsFrom_first (arranged : document.Arranged kids loose) {first : NodeId}
    (known : document.first? id = some first) : document.siblingsFrom first = kids id := by
  obtain ⟨head, rest, split, -, first'⟩ := arranged.exists_head (isList_of_first? known)
  obtain rfl : head = first := Option.some.inj (first'.symm.trans known)
  rw [split]
  exact arranged.siblingsFrom (show kids id = [] ++ head :: rest from split)

/-- A subtree is all that can be reached, if it is read deep enough. -/
theorem mem_subtree_of_walk (arranged : document.Arranged kids loose) {start : NodeId}
    {count depth : Nat} (mem : start ∈ root :: loose) (walk : Walk kids.Holds start count id)
    (deep : document.slots.size ≤ count + depth) :
    other ∈ document.subtree depth id ↔ ReflTransGen kids.Holds id other := by
  induction depth generalizing id count with
  | zero => exact absurd (arranged.walk_lt mem walk) (Nat.not_lt.2 deep)
  | succ depth ih =>
      rw [ReflTransGen.cases_head_iff, subtree]
      cases known : document.first? id with
      | none => simp [Contents.Holds, arranged.holds_nothing known, eq_comm]
      | some first =>
          simp only [List.mem_cons, arranged.siblingsFrom_first known, List.mem_flatMap]
          refine or_congr eq_comm (exists_congr fun child => and_congr_right fun held => ?_)
          exact ih (walk.next held) (by omega)

/-- A subtree, read as deep as there are slots, is all that can be reached. -/
theorem mem_subtree (arranged : document.Arranged kids loose) :
    other ∈ document.subtree document.chainLimit id ↔ ReflTransGen kids.Holds id other := by
  by_cases live : document.Live id
  · obtain ⟨start, mem, reaches⟩ := arranged.reached live
    obtain ⟨count, walk⟩ := Walk.of_reaches reaches
    exact arranged.mem_subtree_of_walk mem walk (Nat.le_add_left _ _)
  · have notList : document.first? id = none := by
      by_contra known
      obtain ⟨first, known⟩ := Option.ne_none_iff_exists'.1 known
      exact live (live_of_isList (by rw [Document.isList, known]; rfl))
    have alone : document.subtree document.chainLimit id = [id] := by
      cases document.chainLimit with
      | zero => rfl
      | succ depth => rw [subtree, notList]
    rw [alone, ReflTransGen.cases_head_iff]
    simp [Contents.Holds, arranged.holds_nothing notList, eq_comm]

/-- Reading a subtree does not look at what else is in the document. -/
theorem subtree_without (arranged : document.Arranged kids loose) (depth : Nat)
    (apart : ∀ other, ReflTransGen kids.Holds id other → other ∉ gone) :
    (document.without gone).subtree depth id = document.subtree depth id := by
  induction depth generalizing id with
  | zero => rfl
  | succ depth ih =>
      have same : (document.without gone).first? id = document.first? id := by
        rw [first?, first?, kind?_without_of_notMem (apart id .refl)]
      rw [subtree, subtree, same]
      cases known : document.first? id with
      | none => rfl
      | some first =>
          have children : (document.without gone).siblingsFrom first = kids id := by
            have chained : (document.without gone).Chained (some id) none (kids id) none :=
              (arranged.chained id).congr fun child held =>
                links?_without_of_notMem (apart child (.single held))
            have whole := chain_of_chained chained (arranged.length_le id)
            rwa [← arranged.first?_of_isList (isList_of_first? known), known,
              ← size_without] at whole
          simp only [children, arranged.siblingsFrom_first known]
          congr 1
          refine List.flatMap_congr fun child held => ?_
          exact ih fun other reaches => apart other (.head held reaches)

/-! ## Freeing -/

theorem free_without (arranged : document.Arranged kids loose)
    (apart : ∀ other, ReflTransGen kids.Holds id other → other ∉ gone) :
    (document.without gone).free id =
      document.without (gone ++ document.subtree document.chainLimit id) := by
  rw [without_append, Document.free, chainLimit, size_without, arranged.subtree_without _ apart]
  rfl

/-- Nodes that hold nothing in common are freed one after the other as if at once. -/
theorem foldl_free (arranged : document.Arranged kids loose) (nodup : ids.Nodup)
    (disjoint : ∀ {a b other}, a ∈ ids → b ∈ ids → ReflTransGen kids.Holds a other →
      ReflTransGen kids.Holds b other → a = b)
    (apart : ∀ id ∈ ids, ∀ other, ReflTransGen kids.Holds id other → other ∉ gone) :
    ids.foldl Document.free (document.without gone) =
      document.without (gone ++ ids.flatMap (document.subtree document.chainLimit)) := by
  induction ids generalizing gone with
  | nil => simp
  | cons first rest ih =>
      obtain ⟨fresh, nodup⟩ := List.nodup_cons.1 nodup
      rw [List.foldl_cons, arranged.free_without (apart first List.mem_cons_self), ih nodup,
        List.flatMap_cons, List.append_assoc]
      · exact fun mem mem' => disjoint (List.mem_cons_of_mem _ mem) (List.mem_cons_of_mem _ mem')
      · intro id mem other reaches held
        rcases List.mem_append.1 held with held | held
        · exact apart id (List.mem_cons_of_mem _ mem) other reaches held
        · have reaches' := arranged.mem_subtree.1 held
          have same := disjoint (List.mem_cons_of_mem _ mem) List.mem_cons_self reaches reaches'
          exact fresh (same ▸ mem)

end Arranged

/-! ## What is left -/

/-- Of the loose nodes those in `starts` are removed, with all that they hold, and those in `left`
are not. -/
structure Removed (kids : Contents) (loose starts left gone : List NodeId) : Prop where
  among : ∀ id ∈ starts, id ∈ loose
  others : ∀ id, id ∈ left ↔ id ∈ loose ∧ id ∉ starts
  all : ∀ id, id ∈ gone ↔ ∃ start ∈ starts, ReflTransGen kids.Holds start id

namespace Removed

variable {starts left : List NodeId} (removed : Removed kids loose starts left gone)
  (arranged : document.Arranged kids loose)

include removed arranged

/-- The root and the other loose nodes are in no list, so nothing that is gone held them. -/
theorem notMem_of_start {start : NodeId} (mem : start ∈ root :: left) : start ∉ gone := by
  intro gone
  obtain ⟨other, mem', reaches⟩ := (removed.all start).1 gone
  rcases List.mem_cons.1 mem with rfl | mem
  · cases reaches with
    | refl => exact (arranged.loosened root (removed.among root mem')).2.2 rfl
    | tail _ held => exact arranged.ne_root held rfl
  · obtain ⟨mem, out⟩ := (removed.others start).1 mem
    cases reaches with
    | refl => exact out mem'
    | tail _ held => exact arranged.notMem_loose held mem

/-- Nothing that is left is held by what is gone, and nothing that is gone by what is left. -/
theorem mem_iff_of_held (held : id ∈ kids list) : id ∈ gone ↔ list ∈ gone := by
  rw [removed.all, removed.all]
  constructor
  · rintro ⟨start, mem, reaches⟩
    cases reaches with
    | refl => exact absurd (removed.among id mem) (arranged.notMem_loose held)
    | tail front held' => exact ⟨start, mem, arranged.single held held' ▸ front⟩
  · rintro ⟨start, mem, reaches⟩
    exact ⟨start, mem, reaches.tail held⟩

theorem notMem_of_held (held : id ∈ kids.without gone list) :
    id ∈ kids list ∧ list ∉ gone ∧ id ∉ gone := by
  obtain ⟨held, out⟩ := Contents.mem_without.1 held
  exact ⟨held, out, fun mem => out ((removed.mem_iff_of_held arranged held).1 mem)⟩

/-- The way to a node that is left is left too. -/
theorem reaches {start : NodeId} (reaches : ReflTransGen kids.Holds start id) (out : id ∉ gone) :
    ReflTransGen (kids.without gone).Holds start id := by
  induction reaches with
  | refl => exact .refl
  | @tail middle last _ held ih =>
      have out' : middle ∉ gone := fun mem =>
        out ((removed.mem_iff_of_held arranged held).2 mem)
      exact (ih out').tail (Contents.mem_without.2 ⟨held, out'⟩)

/-- A node that is left can be reached from the root or from a loose node that is left. -/
theorem reached (live : document.Live id) (out : id ∉ gone) :
    ∃ start ∈ root :: left, ReflTransGen (kids.without gone).Holds start id := by
  obtain ⟨start, mem, reaches⟩ := arranged.reached live
  refine ⟨start, ?_, removed.reaches arranged reaches out⟩
  rcases List.mem_cons.1 mem with rfl | mem
  · exact List.mem_cons_self
  · refine List.mem_cons_of_mem _ ((removed.others start).2 ⟨mem, fun mem' => ?_⟩)
    exact out ((removed.all id).2 ⟨start, mem', reaches⟩)

/-- Once some loose nodes are gone with all that they held, the others are left. -/
theorem result : (document.without gone).Arranged (kids.without gone) left := by
  have rootLeft := removed.notMem_of_start arranged List.mem_cons_self
  constructor
  case ends =>
    intro list first last kind
    have out := (live_without.1 (live_of_kind? kind)).1
    rw [Contents.without_of_notMem out]
    exact arranged.ends (kind?_without_of_notMem out ▸ kind)
  case plain =>
    intro list notList
    rw [Contents.without]
    split
    · rfl
    · next out =>
        rw [Document.isList, first?, kind?_without_of_notMem out] at notList
        exact arranged.plain notList
  case chained =>
    intro list
    rw [Contents.without]
    split
    · exact True.intro
    · next out =>
        exact (arranged.chained list).congr fun id mem => links?_without_of_notMem fun mem' =>
          out ((removed.mem_iff_of_held arranged mem).1 mem')
  case nodup =>
    intro list
    rw [Contents.without]
    split
    · exact List.nodup_nil
    · exact arranged.nodup list
  case heads =>
    intro list id mem
    obtain ⟨mem, out, out'⟩ := removed.notMem_of_held arranged mem
    rw [Contents.without_of_notMem out, kind?_without_of_notMem out']
    exact arranged.heads mem
  case rooted =>
    rw [Document.isList, first?, kind?_without_of_notMem rootLeft]
    exact arranged.rooted
  case unlinked =>
    rw [links?_without_of_notMem rootLeft]
    exact arranged.unlinked
  case loosened =>
    intro id mem
    have out := removed.notMem_of_start arranged (List.mem_cons_of_mem _ mem)
    obtain ⟨live, notHead, notRoot⟩ := arranged.loosened id ((removed.others id).1 mem).1
    rw [live_without, kind?_without_of_notMem out]
    exact ⟨⟨out, live⟩, notHead, notRoot⟩
  case free =>
    intro start mem list held
    obtain ⟨held, -, -⟩ := removed.notMem_of_held arranged held
    rcases List.mem_cons.1 mem with rfl | mem
    · exact arranged.ne_root held rfl
    · exact arranged.notMem_loose held ((removed.others start).1 mem).1
  case reached =>
    intro id live
    obtain ⟨out, live⟩ := live_without.1 live
    exact removed.reached arranged live out

end Removed

namespace Arranged

/-! ## Freeing loose nodes -/

theorem foldl_free_freed (arranged : document.Arranged kids loose) (nodup : ids.Nodup)
    (disjoint : ∀ {a b other}, a ∈ ids → b ∈ ids → ReflTransGen kids.Holds a other →
      ReflTransGen kids.Holds b other → a = b) :
    document.Freed (ids.foldl Document.free document) kids ids := by
  refine ⟨ids.flatMap (document.subtree document.chainLimit), ?_, fun id => ?_⟩
  · exact arranged.foldl_free nodup disjoint fun _ _ _ _ => List.not_mem_nil
  · rw [List.mem_flatMap]
    exact exists_congr fun id => and_congr_right fun _ => arranged.mem_subtree

/-- Freeing loose nodes removes them with all that they held. -/
theorem foldl_free_freed_of_loose (arranged : document.Arranged kids loose) (nodup : ids.Nodup)
    (among : ∀ id ∈ ids, id ∈ loose) :
    document.Freed (ids.foldl Document.free document) kids ids := by
  have start : ∀ {id}, id ∈ ids → id ∈ root :: loose :=
    fun mem => List.mem_cons_of_mem _ (among _ mem)
  exact arranged.foldl_free_freed nodup
    fun mem mem' => arranged.apart_of_start (start mem) (start mem')

theorem free_freed (arranged : document.Arranged kids [id]) :
    document.Freed (document.free id) kids [id] :=
  arranged.foldl_free_freed_of_loose (List.nodup_singleton id) fun _ mem => mem

theorem freeRun_freed {run : List NodeId} {first last : NodeId} {parent : Option NodeId}
    (arranged : document.Arranged kids loose) (nodup : run.Nodup) (among : ∀ id ∈ run, id ∈ loose)
    (chained : document.Chained parent none run none) (starts : run.head? = some first)
    (ends : run.getLast? = some last) : document.Freed (document.freeRun first last) kids run := by
  rw [Document.freeRun, run_of_chained nodup chained starts ends]
  exact arranged.foldl_free_freed_of_loose nodup among

/-- A list that holds no more than its head leads to that only. -/
theorem reaches_shell {head : NodeId} (arranged : document.Arranged kids loose)
    (split : kids list = [head]) :
    ReflTransGen kids.Holds list id ↔ id = head ∨ id = list := by
  have mem : head ∈ kids list := by simp [split]
  have kind : document.kind? head = some .head := (arranged.heads mem).2 (by rw [split]; rfl)
  have barren : kids head = [] := arranged.plain (by rw [Document.isList, first?, kind]; rfl)
  constructor
  · intro reaches
    rcases ReflTransGen.cases_head reaches with rfl | ⟨middle, held, reaches⟩
    · exact .inr rfl
    · rw [Contents.Holds, split, List.mem_singleton] at held
      subst held
      rcases ReflTransGen.cases_head reaches with rfl | ⟨_, held, _⟩
      · exact .inl rfl
      · rw [Contents.Holds, barren] at held
        cases held
  · rintro (rfl | rfl)
    · exact .single mem
    · exact .refl

/-- Freeing the shell of a list that holds no more than its head removes both. -/
theorem freeShell_freed {head : NodeId} (arranged : document.Arranged kids loose)
    (split : kids list = [head]) : document.Freed (document.freeShell list) kids [list] := by
  have first := arranged.first?_of_cons split
  refine ⟨[head, list], by rw [Document.freeShell, first]; rfl, fun id => ?_⟩
  simp only [List.mem_cons, List.not_mem_nil, or_false, exists_eq_left]
  exact (arranged.reaches_shell split).symm

/-! ## Emptying -/

theorem rearranged_clear {head : NodeId} {rest : List NodeId}
    (arranged : document.Arranged kids loose) (split : kids root = head :: rest) :
    document.Rearranged ((document.setNext head none).setLast root head) kids loose (rest ++ loose)
      root [head] := by
  have nodup := arranged.nodup root
  rw [split, List.nodup_cons] at nodup
  constructor
  case links =>
    intro id out out'
    rw [links?_setLast, links?_setNext, if_neg (by simpa using out')]
  case chained =>
    refine ⟨?_, True.intro⟩
    rw [links?_setLast, links?_setNext, if_pos rfl,
      arranged.links? (show kids root = [] ++ head :: rest from split)]
    rfl
  case kinds => exact fun id differs => by rw [kind?_setLast, if_neg differs, kind?_setNext]
  case ends =>
    obtain ⟨first, last, kind⟩ := isList_iff.1 arranged.rooted
    have isFirst := (arranged.ends kind).1
    rw [split, List.head?_cons] at isFirst
    refine ⟨first, head, ?_, isFirst, rfl⟩
    rw [kind?_setLast, if_pos rfl, kind?_setNext, kind]
    rfl
  case head => rw [split, List.head?_cons, List.head?_cons]
  case nodup => exact List.nodup_singleton head
  case origin => exact fun id mem => .inl (by simp [split, List.mem_singleton.1 mem])
  case outside =>
    intro id mem loosened
    refine absurd loosened (arranged.notMem_loose (show id ∈ kids root from ?_))
    simp [split, List.mem_singleton.1 mem]
  case left =>
    intro id
    simp only [split, List.mem_append, List.mem_cons, List.not_mem_nil, or_false]
    constructor
    · rintro (mem | mem)
      · exact ⟨.inl (.inr mem), fun same => nodup.1 (same ▸ mem)⟩
      · refine ⟨.inr mem, fun same => ?_⟩
        exact arranged.notMem_loose (show id ∈ kids root by simp [split, same]) mem
    · rintro ⟨(rfl | mem) | mem, differs⟩
      · exact absurd rfl differs
      · exact .inl mem
      · exact .inr mem

/-- The root and its head are left when all children of the root are freed. -/
theorem exists_emptied {head : NodeId} {rest : List NodeId}
    (arranged : document.Arranged kids loose) (split : kids root = head :: rest) :
    ∃ gone, rest.foldl Document.free document = document.without gone ∧
      (∀ id, id ∈ gone ↔ ∃ start ∈ rest, ReflTransGen kids.Holds start id) ∧
      root ∉ gone ∧ head ∉ gone := by
  have inside : ∀ {id}, id ∈ rest → id ∈ kids root := fun mem => by simp [split, mem]
  have nodup := arranged.nodup root
  rw [split, List.nodup_cons] at nodup
  obtain ⟨gone, freed, all⟩ := arranged.foldl_free_freed nodup.2
    fun mem mem' => arranged.apart_of_mem (inside mem) (inside mem')
  refine ⟨gone, freed, all, fun mem => ?_, fun mem => ?_⟩
  · obtain ⟨start, mem, reaches⟩ := (all root).1 mem
    cases reaches with
    | refl => exact arranged.ne_root (inside mem) rfl
    | tail _ held => exact arranged.ne_root held rfl
  · obtain ⟨start, mem, reaches⟩ := (all head).1 mem
    have same := arranged.apart_of_mem (inside mem) (show head ∈ kids root by simp [split])
      reaches .refl
    exact nodup.1 (same ▸ mem)

theorem top_without {head : NodeId} {rest : List NodeId} (arranged : document.Arranged kids loose)
    (split : kids root = head :: rest) (left : root ∉ gone) :
    (document.without gone).top = head := by
  have first : document.first? root = some head := by
    rw [arranged.first?_of_isList arranged.rooted, split, List.head?_cons]
  rw [top, first?, kind?_without_of_notMem left, ← first?, first, Option.getD_some]

/-- Clearing removes everything but the root and its head. -/
theorem clear_freed {head : NodeId} {rest : List NodeId}
    (arranged : document.Arranged kids loose) (split : kids root = head :: rest) :
    ((document.setNext head none).setLast root head).Freed document.clear (kids.set root [head])
      rest := by
  obtain ⟨gone, freed, all, rootLeft, -⟩ := arranged.exists_emptied split
  refine ⟨gone, ?_, fun id => (all id).trans ⟨?_, ?_⟩⟩
  · rw [Document.clear, arranged.children arranged.rooted, split, List.tail_cons, freed,
      arranged.top_without split rootLeft, setNext, setLast, update_without, update_without]
    rfl
  · rintro ⟨start, mem, reaches⟩
    rcases Contents.reaches_set reaches with reaches | ⟨other, mem', out, reaches⟩
    · exact ⟨start, mem, reaches⟩
    · simp only [split, List.mem_cons] at mem' out
      exact ⟨other, mem'.resolve_left fun same => out (.inl same), reaches⟩
  · rintro ⟨start, mem, reaches⟩
    exact ⟨start, mem, Contents.reaches_of_set (by simp [split]) reaches⟩

end Arranged

/-- What is left of the loose nodes, if those that are removed stand in front of the others. -/
theorem mem_iff_of_apart {starts left : List NodeId} (apart : ∀ id ∈ left, id ∉ starts)
    (id : NodeId) : id ∈ left ↔ id ∈ starts ++ left ∧ id ∉ starts := by
  rw [List.mem_append, or_and_right, and_not_self_iff, false_or]
  exact (and_iff_left_of_imp (apart id)).symm

/-- What no freed node held is what it was, and holds what it held. -/
theorem Freed.exists_left {freed : Document} {starts left : List NodeId}
    (removal : document.Freed freed kids starts) (arranged : document.Arranged kids loose)
    (among : ∀ id ∈ starts, id ∈ loose) (others : ∀ id, id ∈ left ↔ id ∈ loose ∧ id ∉ starts) :
    ∃ kids', freed.Arranged kids' left ∧
      ∀ id, (∀ start ∈ starts, ¬ ReflTransGen kids.Holds start id) →
        freed.get? id = document.get? id ∧ kids' id = kids id := by
  obtain ⟨gone, rfl, all⟩ := removal
  refine ⟨_, Removed.result ⟨among, others, all⟩ arranged, fun id out => ?_⟩
  have left : id ∉ gone := by
    intro mem
    obtain ⟨start, mem, reaches⟩ := (all id).1 mem
    exact out start mem reaches
  exact ⟨get?_without_of_notMem left, Contents.without_of_notMem left⟩

namespace Freed

variable {freed : Document} (removal : document.Freed freed kids loose)
  (arranged : document.Arranged kids loose)

include removal arranged

theorem exists_kept : ∃ kids', freed.Arranged kids' [] ∧
    ∀ id, (∀ start ∈ loose, ¬ ReflTransGen kids.Holds start id) →
      freed.kind? id = document.kind? id ∧ kids' id = kids id := by
  have none : ∀ id, id ∈ [] ↔ id ∈ loose ∧ id ∉ loose := by simp
  obtain ⟨kids', arranged', kept⟩ := removal.exists_left arranged (fun _ mem => mem) none
  refine ⟨kids', arranged', fun id out => ?_⟩
  obtain ⟨same, contents⟩ := kept id out
  rw [kind?, kind?, same]
  exact ⟨rfl, contents⟩

/-- The root is not among what is gone, so its own nodes are those that it had. -/
theorem exists_rooted : ∃ kids', freed.Arranged kids' [] ∧ kids' root = kids root := by
  obtain ⟨kids', arranged', kept⟩ := removal.exists_kept arranged
  exact ⟨kids', arranged', (kept root fun start mem => arranged.apart_of_root mem .refl).2⟩

theorem result : ∃ kids', freed.Arranged kids' [] := by
  obtain ⟨kids', arranged', -⟩ := removal.exists_rooted arranged
  exact ⟨kids', arranged'⟩

theorem live (live : document.Live id) (reaches : ReflTransGen kids.Holds root id) :
    freed.Live id := by
  obtain ⟨gone, rfl, all⟩ := removal
  refine live_without.2 ⟨fun mem => ?_, live⟩
  obtain ⟨start, mem, reaches'⟩ := (all id).1 mem
  exact arranged.apart_of_root mem reaches reaches'

end Freed

/-- Taking a run out of a list and removing it leaves all else alone. -/
theorem Arranged.exists_removed {front run back : List NodeId} {prev first last : NodeId}
    {freed : Document} (arranged : document.Arranged kids [])
    (parted : Parted front run back prev first last) (split : kids list = front ++ run ++ back)
    (removal : (document.cutRun (some list) prev first last back.head?).Freed freed
      (kids.set list (front ++ back)) run) :
    ∃ kids', freed.Arranged kids' [] ∧ kids' list = front ++ back ∧
      document.Spares freed kids kids' list run := by
  have change := arranged.rearranged_cutRun parted split
  have arranged' := change.result arranged
  rw [List.append_nil] at arranged'
  obtain ⟨kids', arranged'', kept⟩ := removal.exists_kept arranged'
  have inside : ∀ id ∈ front ++ back, id ∈ kids list := fun _ => mem_of_split split
  refine ⟨kids', arranged'', ?_, ?_⟩
  · refine (kept list fun start mem reaches => ?_).2.trans Contents.set_self
    exact arranged.acyclic (by simp [split, mem]) (Contents.reaches_of_set inside reaches)
  · intro id _ differs out
    obtain ⟨kind, contents⟩ :=
      kept id fun start mem reaches => out start mem (Contents.reaches_of_set inside reaches)
    exact ⟨kind.trans (change.kinds id differs), contents.trans (Contents.set_of_ne differs)⟩

end Document

end LiveStack
