import LiveStack.Proofs.Document.Surgery

/-!
# The operations keep an arrangement

What the operations on a document do to the lists: a run is cut out of its list, a loose run is put
into one, and new nodes are added loose and then put in like any run.
-/

namespace LiveStack

open Relation

namespace Document

variable {document : Document} {kids : Contents} {loose front run back : List NodeId}
  {list id prev first last : NodeId}

/-- A run between two other pieces of a list, with `prev` before it, and its ends. -/
structure Parted (front run back : List NodeId) (prev first last : NodeId) : Prop where
  nodup : (front ++ run ++ back).Nodup
  before : front.getLast? = some prev
  starts : run.head? = some first
  ends : run.getLast? = some last

namespace Parted

variable (parted : Parted front run back prev first last)

include parted

theorem prev_mem : prev ∈ front := List.mem_of_mem_getLast? parted.before

theorem first_mem : first ∈ run := List.mem_of_mem_head? parted.starts

theorem last_mem : last ∈ run := List.mem_of_mem_getLast? parted.ends

theorem front_out (mem : id ∈ front) : id ∉ run ∧ id ∉ back := by
  have nodup := parted.nodup
  rw [List.append_assoc, List.nodup_append] at nodup
  have apart := nodup.2.2 id mem
  exact ⟨fun mem' => apart id (List.mem_append_left _ mem') rfl,
    fun mem' => apart id (List.mem_append_right _ mem') rfl⟩

theorem run_out (mem : id ∈ run) : id ∉ front ∧ id ∉ back := by
  refine ⟨fun mem' => (parted.front_out mem').1 mem, fun mem' => ?_⟩
  exact (List.nodup_append.1 parted.nodup).2.2 id (List.mem_append_right _ mem) id mem' rfl

/-- What is on either side of the run is in the list, and not in the run. -/
theorem beside (split : kids list = front ++ run ++ back) :
    (∀ id ∈ front, id ∈ kids list ∧ id ∉ run) ∧ ∀ id ∈ back, id ∈ kids list ∧ id ∉ run := by
  rw [split]
  constructor
  · intro id mem
    exact ⟨by simp [mem], (parted.front_out mem).1⟩
  · intro id mem
    exact ⟨by simp [mem], fun mem' => (parted.run_out mem').2 mem⟩

theorem nodup_front : front.Nodup :=
  (List.nodup_append.1 (List.nodup_append.1 parted.nodup).1).1

theorem nodup_run : run.Nodup :=
  (List.nodup_append.1 (List.nodup_append.1 parted.nodup).1).2.1

theorem nodup_back : back.Nodup := (List.nodup_append.1 parted.nodup).2.1

theorem exists_front : ∃ init, front = init ++ [prev] ∧ prev ∉ init := by
  obtain ⟨init, rfl⟩ := List.getLast?_eq_some_iff.1 parted.before
  refine ⟨init, rfl, fun mem => ?_⟩
  exact (List.nodup_append.1 parted.nodup_front).2.2 prev mem prev (by simp) rfl

theorem exists_tail : ∃ middle, run = first :: middle ∧ first ∉ middle := by
  obtain ⟨middle, rfl⟩ := List.head?_eq_some_iff.1 parted.starts
  exact ⟨middle, rfl, (List.nodup_cons.1 parted.nodup_run).1⟩

theorem exists_init : ∃ init, run = init ++ [last] ∧ last ∉ init := by
  obtain ⟨init, rfl⟩ := List.getLast?_eq_some_iff.1 parted.ends
  refine ⟨init, rfl, fun mem => ?_⟩
  exact (List.nodup_append.1 parted.nodup_run).2.2 last mem last (by simp) rfl

theorem head?_append (rest : List NodeId) : (front ++ rest).head? = front.head? := by
  obtain ⟨init, rfl, -⟩ := parted.exists_front
  cases init <;> rfl

end Parted

/-- What is on either side of a run is in the list. -/
theorem mem_of_split {ids : List NodeId} (split : ids = front ++ run ++ back)
    (mem : id ∈ front ++ back) : id ∈ ids := by
  subst split
  rcases List.mem_append.1 mem with mem | mem <;> simp [mem]

/-- A node that is neither in a list nor in a run is not in the list with the run in it. -/
theorem notMem_of_split {ids : List NodeId} (split : ids = front ++ back) (notMem : id ∉ ids)
    (out : id ∉ run) : id ∉ front ++ run ++ back := by
  subst split
  simp_all

theorem head?_ne_of_notMem {ids : List NodeId} (notMem : id ∉ ids) : ids.head? ≠ some id :=
  fun starts => notMem (List.mem_of_mem_head? starts)

/-- A list whose contents were changed in front of `back` ends as before, or with `tip` if nothing is
behind the change. -/
theorem Arranged.exists_ends {document' : Document} {contents : List NodeId}
    (arranged : document.Arranged kids loose) (known : document.isList list = true) (tip : NodeId)
    (kind : document'.kind? list =
      if back.head? = none then (document.kind? list).map (NodeKind.endingWith tip)
      else document.kind? list)
    (behind : back <:+ kids list) (head : contents.head? = (kids list).head?)
    (last : contents.getLast? = back.getLast?.or (some tip)) :
    ∃ first last, document'.kind? list = some (.list first last) ∧
      contents.head? = some first ∧ contents.getLast? = some last := by
  obtain ⟨start, stop, kind'⟩ := isList_iff.1 known
  obtain ⟨isFirst, isLast⟩ := arranged.ends kind'
  cases back with
  | nil =>
      refine ⟨start, tip, ?_, head.trans isFirst, last⟩
      rw [kind, if_pos List.head?_nil, kind']
      rfl
  | cons next back =>
      refine ⟨start, stop, ?_, head.trans isFirst, ?_⟩
      · rw [kind, if_neg (by simp), kind']
      · obtain ⟨front, split⟩ := behind
        rw [← split, List.getLast?_append, List.getLast?_cons] at isLast
        rw [last, List.getLast?_cons]
        exact isLast

/-! ## Cutting out -/

/-- The document without a run that stood between `prev` and `next`. -/
def cutRun (document : Document) (list : Option NodeId) (prev first last : NodeId)
    (next : Option NodeId) : Document :=
  (((document.setNext prev next).joinAfter list next prev).setPrev first none).setNext last none

theorem links?_cutRun {next parent : Option NodeId} :
    (document.cutRun parent prev first last next).links? id =
      (document.links? id).map fun links =>
        { prev := if id = first then none else if next = some id then some prev else links.prev
          next := if id = last then none else if id = prev then next else links.next
          parent := links.parent } := by
  rw [cutRun, links?_setNext, links?_setPrev, links?_joinAfter, links?_setNext]
  cases document.links? id with
  | none => split_ifs <;> rfl
  | some links => split_ifs <;> rfl

theorem links?_cutRun_of_notMem {next : Option NodeId} (notPrev : id ≠ prev)
    (notNext : next ≠ some id) (notFirst : id ≠ first) (notLast : id ≠ last) :
    (document.cutRun (some list) prev first last next).links? id = document.links? id := by
  simp only [links?_cutRun, if_neg notNext, if_neg notFirst, if_neg notLast, if_neg notPrev]
  exact Option.map_id'

theorem kind?_cutRun {next : Option NodeId} :
    (document.cutRun (some list) prev first last next).kind? id =
      if next = none ∧ list = id then (document.kind? id).map (NodeKind.endingWith prev)
      else document.kind? id := by
  rw [cutRun, kind?_setNext, kind?_setPrev, kind?_joinAfter, kind?_setNext]
  simp only [Option.some.injEq]

@[simp] theorem size_cutRun {next parent : Option NodeId} :
    (document.cutRun parent prev first last next).slots.size = document.slots.size := by
  simp [cutRun]

theorem chained_cutRun (parted : Parted front run back prev first last)
    (chained : document.Chained (some list) none (front ++ run ++ back) none) :
    (document.cutRun (some list) prev first last back.head?).Chained (some list) none
        (front ++ back) none ∧
      (document.cutRun (some list) prev first last back.head?).Chained (some list) none run
        none := by
  rw [chained_append, chained_append, Option.or_none] at chained
  obtain ⟨⟨chain₁, chain₂⟩, chain₃⟩ := chained
  obtain ⟨firstFront, firstBack⟩ := parted.run_out parted.first_mem
  obtain ⟨lastFront, lastBack⟩ := parted.run_out parted.last_mem
  obtain ⟨prevRun, prevBack⟩ := parted.front_out parted.prev_mem
  -- Every change is at an end of one of the three pieces, and leaves the others as they are.
  have chain₁ : (document.setNext prev back.head?).Chained (some list) none front back.head? := by
    obtain ⟨init, rfl, fresh⟩ := parted.exists_front
    exact chain₁.setNext fresh back.head?
  have chain₁ := ((chain₁.joinAfter_of_notMem
    (fun id mem => head?_ne_of_notMem (parted.front_out mem).2) (some list) prev).setPrev_of_notMem
    firstFront none).setNext_of_notMem lastFront none
  have chain₂ := (chain₂.setNext_of_notMem prevRun back.head?).joinAfter_of_notMem
    (fun id mem => head?_ne_of_notMem (parted.run_out mem).2) (some list) prev
  have chain₃ := (((chain₃.setNext_of_notMem prevBack back.head?).joinAfter parted.nodup_back
    (some list) prev).setPrev_of_notMem firstBack none).setNext_of_notMem lastBack none
  constructor
  · rw [chained_append, Option.or_none, parted.before]
    exact ⟨chain₁, chain₃⟩
  · obtain ⟨middle, split, fresh⟩ := parted.exists_tail
    rw [split] at chain₂
    have chain₂ := chain₂.setPrev fresh none
    rw [← split] at chain₂
    obtain ⟨init, split', fresh'⟩ := parted.exists_init
    rw [split'] at chain₂ ⊢
    exact chain₂.setNext fresh' none

namespace Arranged

theorem unlinkRun_eq (arranged : document.Arranged kids loose)
    (parted : Parted front run back prev first last) (split : kids list = front ++ run ++ back) :
    document.unlinkRun first last =
      some (prev, document.cutRun (some list) prev first last back.head?) := by
  obtain ⟨middle, fromFirst, -⟩ := parted.exists_tail
  obtain ⟨init, toLast, -⟩ := parted.exists_init
  have atFirst : kids list = front ++ first :: (middle ++ back) := by simp [split, fromFirst]
  have atLast : kids list = (front ++ init) ++ last :: back := by simp [split, toLast]
  have mem : first ∈ kids list := by simp [atFirst]
  rw [Document.unlinkRun, arranged.prev? atFirst, parted.before, arranged.next? atLast,
    arranged.parent? mem]
  rfl

theorem rearranged_cutRun (arranged : document.Arranged kids loose)
    (parted : Parted front run back prev first last) (split : kids list = front ++ run ++ back) :
    document.Rearranged (document.cutRun (some list) prev first last back.head?) kids loose
      (run ++ loose) list (front ++ back) := by
  have chained := arranged.chained list
  rw [split] at chained
  have inside : ∀ {id}, id ∈ front ++ back → id ∈ kids list := mem_of_split split
  constructor
  case chained => exact (chained_cutRun parted chained).1
  case origin => exact fun id mem => .inl (inside mem)
  case outside => exact fun id mem outside => absurd outside (arranged.notMem_loose (inside mem))
  case nodup =>
    refine List.nodup_append.2 ⟨parted.nodup_front, parted.nodup_back, ?_⟩
    rintro id mem _ mem' rfl
    exact (parted.front_out mem).2 mem'
  case links =>
    intro id out _
    rw [split, List.mem_append, List.mem_append] at out
    refine links?_cutRun_of_notMem ?_ (head?_ne_of_notMem fun mem => out (.inr mem)) ?_ ?_
    · exact fun same => out (.inl (.inl (same ▸ parted.prev_mem)))
    · exact fun same => out (.inl (.inr (same ▸ parted.first_mem)))
    · exact fun same => out (.inl (.inr (same ▸ parted.last_mem)))
  case kinds =>
    intro id differs
    rw [kind?_cutRun, if_neg fun both => differs both.2.symm]
  case head => rw [split, List.append_assoc, parted.head?_append, parted.head?_append]
  case ends =>
    have known := arranged.isList_of_mem (inside (List.mem_append_left _ parted.prev_mem))
    refine arranged.exists_ends known prev ?_ ⟨_, split.symm⟩ ?_ ?_
    · rw [kind?_cutRun]
      simp only [and_true]
    · rw [split, List.append_assoc, parted.head?_append, parted.head?_append]
    · rw [List.getLast?_append, parted.before]
  case left =>
    intro id
    rw [List.mem_append, split, List.mem_append, List.mem_append, List.mem_append]
    constructor
    · rintro (mem | mem)
      · obtain ⟨notFront, notBack⟩ := parted.run_out mem
        exact ⟨.inl (.inl (.inr mem)), not_or.2 ⟨notFront, notBack⟩⟩
      · refine ⟨.inr mem, fun mem' => ?_⟩
        exact arranged.notMem_loose (inside (List.mem_append.2 mem')) mem
    · rintro ⟨((mem | mem) | mem) | mem, out⟩
      · exact absurd (.inl mem) out
      · exact .inl mem
      · exact absurd (.inr mem) out
      · exact .inr mem

/-- A run that does not begin its list is taken out of it. -/
theorem unlinkRun (arranged : document.Arranged kids loose)
    (parted : Parted front run back prev first last) (split : kids list = front ++ run ++ back) :
    ∃ cut, document.unlinkRun first last = some (prev, cut) ∧
      cut.Arranged (kids.set list (front ++ back)) (run ++ loose) ∧
      cut.Chained (some list) none run none ∧ cut.slots.size = document.slots.size := by
  have chained := arranged.chained list
  rw [split] at chained
  exact ⟨_, arranged.unlinkRun_eq parted split,
    (arranged.rearranged_cutRun parted split).result arranged,
    (chained_cutRun parted chained).2, size_cutRun⟩

end Arranged

/-! ## Putting in -/

/-- A run is read back from its ends. -/
theorem run_eq (siblings : document.siblingsFrom first = run ++ back) (nodup : run.Nodup)
    (ends : run.getLast? = some last) : document.run first last = run := by
  obtain ⟨init, rfl⟩ := List.getLast?_eq_some_iff.1 ends
  have before : (init ++ [last] ++ back).takeWhile (· ≠ last) = init := by
    rw [List.append_assoc, List.takeWhile_append_of_pos]
    · simp
    · intro id mem
      have differs := (List.nodup_append.1 nodup).2.2 id mem last (by simp)
      simpa using differs
  simp only [Document.run, siblings, before]
  simp

/-- The end of a chain is read from its first node. -/
theorem siblingsFrom_of_chained {parent before : Option NodeId} (nodup : run.Nodup)
    (chained : document.Chained parent before run none) (starts : run.head? = some first) :
    document.siblingsFrom first = run := by
  have length := length_le_of_live nodup fun id mem => chained.live mem
  rw [Document.siblingsFrom, ← starts]
  exact chain_of_chained chained length

theorem run_of_chained {parent before : Option NodeId} (nodup : run.Nodup)
    (chained : document.Chained parent before run none) (starts : run.head? = some first)
    (ends : run.getLast? = some last) : document.run first last = run := by
  have siblings := siblingsFrom_of_chained nodup chained starts
  rw [← run.append_nil] at siblings
  exact run_eq siblings nodup ends

/-- The document with a loose run between `prev` and `next`. -/
def pasteRun (document : Document) (list : Option NodeId) (prev : NodeId) (run : List NodeId)
    (first last : NodeId) (next : Option NodeId) : Document :=
  ((((run.foldl (fun moved id => moved.setParent id list) document).setNext prev
    (some first)).setPrev first (some prev)).setNext last next).joinAfter list next last

theorem links?_pasteRun {next parent : Option NodeId} :
    (document.pasteRun parent prev run first last next).links? id =
      (document.links? id).map fun links =>
        { prev := if next = some id then some last else if id = first then some prev else links.prev
          next := if id = last then next else if id = prev then some first else links.next
          parent := if id ∈ run then parent else links.parent } := by
  rw [pasteRun, links?_joinAfter, links?_setNext, links?_setPrev, links?_setNext,
    links?_foldl_setParent]
  cases document.links? id with
  | none => split_ifs <;> rfl
  | some links => split_ifs <;> rfl

theorem links?_pasteRun_of_notMem {next : Option NodeId} (notPrev : id ≠ prev)
    (notNext : next ≠ some id) (notFirst : id ≠ first) (notLast : id ≠ last) (notRun : id ∉ run) :
    (document.pasteRun (some list) prev run first last next).links? id = document.links? id := by
  simp only [links?_pasteRun, if_neg notNext, if_neg notFirst, if_neg notLast, if_neg notPrev,
    if_neg notRun]
  exact Option.map_id'

theorem kind?_pasteRun {next : Option NodeId} :
    (document.pasteRun (some list) prev run first last next).kind? id =
      if next = none ∧ list = id then (document.kind? id).map (NodeKind.endingWith last)
      else document.kind? id := by
  rw [pasteRun, kind?_joinAfter, kind?_setNext, kind?_setPrev, kind?_setNext,
    kind?_foldl_setParent]
  simp only [Option.some.injEq]

@[simp] theorem size_pasteRun {next parent : Option NodeId} :
    (document.pasteRun parent prev run first last next).slots.size = document.slots.size := by
  simp [pasteRun]

theorem chained_pasteRun {parent : Option NodeId}
    (parted : Parted front run back prev first last)
    (chained : document.Chained (some list) none (front ++ back) none)
    (chained' : document.Chained parent none run none) :
    (document.pasteRun (some list) prev run first last back.head?).Chained (some list) none
      (front ++ run ++ back) none := by
  rw [chained_append] at chained
  obtain ⟨chain₁, chain₃⟩ := chained
  obtain ⟨firstFront, firstBack⟩ := parted.run_out parted.first_mem
  obtain ⟨lastFront, lastBack⟩ := parted.run_out parted.last_mem
  obtain ⟨prevRun, prevBack⟩ := parted.front_out parted.prev_mem
  -- Each piece is followed through all the changes: they touch its ends, or nothing in it.
  have chain₁ := chain₁.setParents_of_notMem (fun id mem => (parted.front_out mem).1) (some list)
  have chain₁ : ((run.foldl (fun moved id => moved.setParent id (some list)) document).setNext prev
      (some first)).Chained (some list) none front (some first) := by
    obtain ⟨init, rfl, fresh⟩ := parted.exists_front
    exact chain₁.setNext fresh (some first)
  have chain₁ := ((chain₁.setPrev_of_notMem firstFront (some prev)).setNext_of_notMem lastFront
    back.head?).joinAfter_of_notMem
    (fun id mem => head?_ne_of_notMem (parted.front_out mem).2) (some list) last
  have chain₂ := (chained'.setParents (some list)).setNext_of_notMem prevRun (some first)
  have chain₂ : (document.pasteRun (some list) prev run first last back.head?).Chained (some list)
      (some prev) run back.head? := by
    obtain ⟨middle, split, fresh⟩ := parted.exists_tail
    obtain ⟨init, split', fresh'⟩ := parted.exists_init
    rw [pasteRun]
    refine Chained.joinAfter_of_notMem ?_
      (fun id mem => head?_ne_of_notMem (parted.run_out mem).2) (some list) last
    generalize (run.foldl (fun moved id => moved.setParent id (some list)) document).setNext prev
      (some first) = moved at chain₂ ⊢
    rw [split] at chain₂
    have chain₂ := chain₂.setPrev fresh (some prev)
    rw [← split, split'] at chain₂
    rw [split']
    exact chain₂.setNext fresh' back.head?
  have chain₃ := ((((chain₃.setParents_of_notMem (fun id mem mem' => (parted.run_out mem').2 mem)
    (some list)).setNext_of_notMem prevBack (some first)).setPrev_of_notMem firstBack
    (some prev)).setNext_of_notMem lastBack back.head?).joinAfter parted.nodup_back (some list) last
  rw [chained_append, chained_append, Option.or_none, List.getLast?_append, parted.ends,
    parted.starts, parted.before]
  exact ⟨⟨chain₁, chain₂⟩, chain₃⟩

namespace Arranged

/-- Loose nodes fit into a list, since they are in none. -/
theorem parted_of_loose (arranged : document.Arranged kids loose)
    (among : ∀ id ∈ run, id ∈ loose) (nodup : run.Nodup) (starts : run.head? = some first)
    (ends : run.getLast? = some last) (split : kids list = front ++ back)
    (before : front.getLast? = some prev) : Parted front run back prev first last := by
  refine ⟨?_, before, starts, ends⟩
  rw [List.append_assoc, (List.perm_append_comm_assoc front run back).nodup_iff, List.nodup_append,
    ← split]
  refine ⟨nodup, arranged.nodup list, ?_⟩
  rintro id mem _ mem' rfl
  exact arranged.notMem_loose mem' (among id mem)

theorem spliceRunAfter_eq {parent before : Option NodeId} (arranged : document.Arranged kids loose)
    (parted : Parted front run back prev first last) (split : kids list = front ++ back)
    (chained : document.Chained parent before run none) :
    document.spliceRunAfter prev first last =
      document.pasteRun (some list) prev run first last back.head? := by
  obtain ⟨init, atPrev, -⟩ := parted.exists_front
  have atPrev : kids list = init ++ prev :: back := by simp [split, atPrev]
  have mem : prev ∈ kids list := by simp [atPrev]
  rw [Document.spliceRunAfter, arranged.parent? mem, arranged.next? atPrev,
    run_of_chained parted.nodup_run chained parted.starts parted.ends]
  rfl

theorem rearranged_pasteRun {parent : Option NodeId}
    (arranged : document.Arranged kids (run ++ loose))
    (parted : Parted front run back prev first last) (split : kids list = front ++ back)
    (chained : document.Chained parent none run none)
    (outside : ∀ id ∈ run, ¬ ReflTransGen kids.Holds id list) (apart : ∀ id ∈ run, id ∉ loose) :
    document.Rearranged (document.pasteRun (some list) prev run first last back.head?) kids
      (run ++ loose) loose list (front ++ run ++ back) := by
  have chained' := arranged.chained list
  rw [split] at chained'
  have inside : ∀ {id}, id ∈ kids list ↔ id ∈ front ∨ id ∈ back := by simp [split]
  constructor
  case chained => exact chained_pasteRun parted chained' chained
  case nodup => exact parted.nodup
  case links =>
    intro id out out'
    rw [List.mem_append, List.mem_append] at out'
    refine links?_pasteRun_of_notMem ?_ (head?_ne_of_notMem fun mem => out' (.inr mem)) ?_ ?_
      fun mem => out' (.inl (.inr mem))
    · exact fun same => out' (.inl (.inl (same ▸ parted.prev_mem)))
    · exact fun same => out' (.inl (.inr (same ▸ parted.first_mem)))
    · exact fun same => out' (.inl (.inr (same ▸ parted.last_mem)))
  case kinds =>
    intro id differs
    rw [kind?_pasteRun, if_neg fun both => differs both.2.symm]
  case head => rw [split, List.append_assoc, parted.head?_append, parted.head?_append]
  case ends =>
    have known := arranged.isList_of_mem (inside.2 (.inl parted.prev_mem))
    refine arranged.exists_ends known last ?_ ⟨_, split.symm⟩ ?_ ?_
    · rw [kind?_pasteRun]
      simp only [and_true]
    · rw [split, List.append_assoc, parted.head?_append, parted.head?_append]
    · rw [List.getLast?_append, List.getLast?_append, parted.ends]
      rfl
  case origin =>
    intro id mem
    rw [List.mem_append, List.mem_append] at mem
    rcases mem with (mem | mem) | mem
    · exact .inl (inside.2 (.inl mem))
    · exact .inr (List.mem_append_left _ mem)
    · exact .inl (inside.2 (.inr mem))
  case outside =>
    intro id mem loosened
    rw [List.mem_append, List.mem_append] at mem
    rcases mem with (mem | mem) | mem
    · exact absurd loosened (arranged.notMem_loose (inside.2 (.inl mem)))
    · exact outside id mem
    · exact absurd loosened (arranged.notMem_loose (inside.2 (.inr mem)))
  case left =>
    intro id
    rw [inside, List.mem_append, List.mem_append, List.mem_append]
    constructor
    · -- What stays loose was neither in the list nor in the run.
      intro mem
      have out := fun mem' => arranged.notMem_loose (inside.2 mem') (List.mem_append_right _ mem)
      refine ⟨.inr (.inr mem), ?_⟩
      rintro ((mem' | mem') | mem')
      · exact out (.inl mem')
      · exact apart id mem' mem
      · exact out (.inr mem')
    · rintro ⟨(mem | mem) | mem | mem, out⟩
      · exact absurd (.inl (.inl mem)) out
      · exact absurd (.inr mem) out
      · exact absurd (.inl (.inr mem)) out
      · exact mem

/-- A loose run is put into a list, unless the list is in the run. -/
theorem spliceRunAfter {parent : Option NodeId}
    (arranged : document.Arranged kids (run ++ loose))
    (parted : Parted front run back prev first last) (split : kids list = front ++ back)
    (chained : document.Chained parent none run none)
    (outside : ∀ id ∈ run, ¬ ReflTransGen kids.Holds id list) (apart : ∀ id ∈ run, id ∉ loose) :
    (document.spliceRunAfter prev first last).Arranged (kids.set list (front ++ run ++ back))
      loose := by
  rw [arranged.spliceRunAfter_eq parted split chained]
  exact (arranged.rearranged_pasteRun parted split chained outside apart).result arranged

end Arranged

/-! ## New nodes -/

/-- Linking a node in is putting in a run of one node. -/
theorem linkAfter_eq {anchor : NodeId} (differs : anchor ≠ id) (live : document.Live id) :
    document.linkAfter anchor id = document.spliceRunAfter anchor id id := by
  have nonempty : 0 < document.slots.size := Nat.zero_lt_of_lt (lt_size_of_live live)
  have alone : document.run id id = [id] := by
    obtain ⟨count, size⟩ := Nat.exists_eq_succ_of_ne_zero (Nat.ne_of_gt nonempty)
    rw [Document.run, siblingsFrom, chainLimit, size, chain]
    simp
  rw [linkAfter, spliceRunAfter, alone]
  simp only [List.foldl_cons, List.foldl_nil]
  congr 1
  refine ext_of_get? (by simp) fun other => ?_
  rw [setNext, setNext, setNext, setPrev, setParent, get?_update, get?_update, get?_update,
    get?_update, get?_update, get?_update]
  by_cases same : other = id
  · subst same
    simp only [if_true, if_neg differs.symm]
    cases document.get? other <;> rfl
  · simp only [if_neg same]

theorem isList_of_kind? {kind : NodeKind} (found : document.kind? id = some kind) :
    document.isList id = true ↔ ∃ first last, kind = .list first last := by
  rw [isList_iff, found]
  simp

theorem links?_linkAfter {anchor fresh : NodeId} (notAnchor : id ≠ anchor) (notFresh : id ≠ fresh)
    (notNext : document.next? anchor ≠ some id) :
    (document.linkAfter anchor fresh).links? id = document.links? id := by
  rw [linkAfter, links?_joinAfter, if_neg notNext, links?_setNext, if_neg notAnchor,
    Document.links?, Document.links?, get?_update, if_neg notFresh]

/-- The second document has one new node, and perhaps the head of it, and is else like the first. -/
structure Grown (document document' : Document) (fresh : NodeId) (inner : List NodeId) : Prop where
  old : ∀ {id}, document.Live id → document'.get? id = document.get? id
  live : ∀ {id}, document'.Live id → document.Live id ∨ id = fresh ∨ id ∈ inner
  /-- A word with nothing in it, or a list with its head in it. -/
  kind : (inner = [] ∧ ∃ reading text, document'.kind? fresh = some (.word reading text)) ∨
    ∃ head, inner = [head] ∧ document'.kind? fresh = some (.list head head) ∧
      document'.get? head = some { kind := .head, parent := some fresh }
  links : document'.links? fresh = some ⟨none, none, none⟩
  unborn : ¬ document.Live fresh
  unborn' : ∀ {id}, id ∈ inner → ¬ document.Live id

namespace Grown

variable {document' : Document} {fresh : NodeId} {inner : List NodeId}
  (growth : document.Grown document' fresh inner)

include growth

theorem kind?_eq (live : document.Live id) : document'.kind? id = document.kind? id := by
  rw [kind?, kind?, growth.old live]

theorem links?_eq (live : document.Live id) : document'.links? id = document.links? id := by
  rw [Document.links?, Document.links?, growth.old live]

theorem kind?_inner (mem : id ∈ inner) : document'.kind? id = some .head := by
  rcases growth.kind with ⟨rfl, -⟩ | ⟨head, rfl, -, found⟩
  · cases mem
  · rw [List.mem_singleton.1 mem, kind?, found]
    rfl

theorem live_fresh : document'.Live fresh := by
  rcases growth.kind with ⟨-, reading, text, kind⟩ | ⟨head, -, kind, -⟩
  · exact live_of_kind? kind
  · exact live_of_kind? kind

theorem kind?_fresh : document'.kind? fresh ≠ some .head := by
  rcases growth.kind with ⟨-, reading, text, kind⟩ | ⟨head, -, kind, -⟩ <;> simp [kind]

theorem ne_fresh (live : document.Live id) : id ≠ fresh := by
  rintro rfl
  exact growth.unborn live

theorem isList_eq (live : document.Live id) : document'.isList id = document.isList id := by
  rw [Document.isList, Document.isList, first?, first?, growth.kind?_eq live]

/-- The new node holds what came with it, and the others hold what they held before. -/
theorem holds_iff (arranged : document.Arranged kids loose) :
    (kids.set fresh inner).Holds list id ↔ list = fresh ∧ id ∈ inner ∨ kids.Holds list id := by
  rw [Contents.Holds]
  rcases eq_or_ne list fresh with rfl | differs
  · have barren : ¬ kids.Holds list id := fun held =>
      growth.unborn (live_of_isList (arranged.isList_of_mem held))
    simp [barren]
  · rw [Contents.set_of_ne differs]
    simp [differs, Contents.Holds]

theorem ends (arranged : document.Arranged kids loose)
    (kind : document'.kind? list = some (.list first last)) :
    (kids.set fresh inner list).head? = some first ∧
      (kids.set fresh inner list).getLast? = some last := by
  rcases growth.live (live_of_kind? kind) with live | rfl | mem
  · rw [Contents.set_of_ne (growth.ne_fresh live)]
    exact arranged.ends (growth.kind?_eq live ▸ kind)
  · rw [Contents.set_self]
    rcases growth.kind with ⟨-, reading, text, kind'⟩ | ⟨head, rfl, kind', -⟩
    · simp [kind] at kind'
    · rw [kind] at kind'
      cases kind'
      exact ⟨rfl, rfl⟩
  · simp [growth.kind?_inner mem] at kind

theorem plain (arranged : document.Arranged kids loose) (notList : document'.isList id = false) :
    kids.set fresh inner id = [] := by
  refine List.eq_nil_iff_forall_not_mem.2 fun other held => ?_
  rcases (growth.holds_iff arranged).1 held with ⟨rfl, mem⟩ | held
  · rcases growth.kind with ⟨rfl, -⟩ | ⟨head, -, kind, -⟩
    · cases mem
    · rw [(isList_of_kind? kind).2 ⟨head, head, rfl⟩] at notList
      cases notList
  · have known := arranged.isList_of_mem held
    rw [growth.isList_eq (live_of_isList known), known] at notList
    cases notList

theorem free (arranged : document.Arranged kids loose) {start : NodeId}
    (mem : start ∈ root :: fresh :: loose) : ¬ (kids.set fresh inner).Holds list start := by
  intro placed
  rcases (growth.holds_iff arranged).1 placed with ⟨-, held⟩ | held
  · rcases List.mem_cons.1 mem with rfl | mem
    · exact growth.unborn' held (live_of_isList arranged.rooted)
    · rcases List.mem_cons.1 mem with rfl | mem
      · exact growth.kind?_fresh (growth.kind?_inner held)
      · exact growth.unborn' held (arranged.loosened start mem).1
  · rcases List.mem_cons.1 mem with rfl | mem
    · exact arranged.ne_root held rfl
    · rcases List.mem_cons.1 mem with rfl | mem
      · exact growth.unborn (arranged.live_of_mem held)
      · exact arranged.notMem_loose held mem

theorem reached (arranged : document.Arranged kids loose) (live : document'.Live id) :
    ∃ start ∈ root :: fresh :: loose, ReflTransGen (kids.set fresh inner).Holds start id := by
  rcases growth.live live with live | rfl | mem
  · obtain ⟨start, mem, reaches⟩ := arranged.reached live
    refine ⟨start, ?_, ReflTransGen.mono (fun list id held => ?_) _ _ reaches⟩
    · rcases List.mem_cons.1 mem with rfl | mem
      · exact List.mem_cons_self
      · exact List.mem_cons_of_mem _ (List.mem_cons_of_mem _ mem)
    · exact (growth.holds_iff arranged).2 (.inr held)
  · exact ⟨id, List.mem_cons_of_mem _ List.mem_cons_self, .refl⟩
  · exact ⟨fresh, List.mem_cons_of_mem _ List.mem_cons_self,
      .single ((growth.holds_iff arranged).2 (.inl ⟨rfl, mem⟩))⟩

/-- A new node is loose at first. -/
theorem result (arranged : document.Arranged kids loose) :
    document'.Arranged (kids.set fresh inner) (fresh :: loose) := by
  have rootLive := live_of_isList arranged.rooted
  constructor
  case ends => exact growth.ends arranged
  case plain => exact growth.plain arranged
  case free => exact fun start mem list => growth.free arranged mem
  case reached => exact growth.reached arranged
  case rooted => exact (growth.isList_eq rootLive).trans arranged.rooted
  case unlinked => exact (growth.links?_eq rootLive).trans arranged.unlinked
  case chained =>
    intro list
    rcases eq_or_ne list fresh with rfl | differs
    · rw [Contents.set_self]
      rcases growth.kind with ⟨rfl, -⟩ | ⟨head, rfl, -, found⟩
      · exact True.intro
      · exact ⟨by rw [Document.links?, found]; rfl, True.intro⟩
    · rw [Contents.set_of_ne differs]
      exact (arranged.chained list).congr fun id mem => growth.links?_eq (arranged.live_of_mem mem)
  case nodup =>
    intro list
    rcases eq_or_ne list fresh with rfl | differs
    · rw [Contents.set_self]
      rcases growth.kind with ⟨rfl, -⟩ | ⟨head, rfl, -, -⟩ <;> simp
    · rw [Contents.set_of_ne differs]
      exact arranged.nodup list
  case heads =>
    intro list id mem
    rcases eq_or_ne list fresh with rfl | differs
    · rw [Contents.set_self] at mem ⊢
      refine iff_of_true (growth.kind?_inner mem) ?_
      rcases growth.kind with ⟨rfl, -⟩ | ⟨head, rfl, -, -⟩
      · cases mem
      · rw [List.mem_singleton.1 mem, List.head?_cons]
    · rw [Contents.set_of_ne differs] at mem ⊢
      rw [growth.kind?_eq (arranged.live_of_mem mem)]
      exact arranged.heads mem
  case loosened =>
    intro id mem
    rcases List.mem_cons.1 mem with rfl | mem
    · exact ⟨growth.live_fresh, growth.kind?_fresh, (growth.ne_fresh rootLive).symm⟩
    · obtain ⟨live, notHead, notRoot⟩ := arranged.loosened id mem
      rw [live_iff_kind?, growth.kind?_eq live, ← live_iff_kind?]
      exact ⟨live, notHead, notRoot⟩

/-- All that is in a new node is its head. -/
theorem reaches_fresh (arranged : document.Arranged kids loose)
    (reaches : ReflTransGen (kids.set fresh inner).Holds fresh id) : id = fresh ∨ id ∈ inner := by
  induction reaches with
  | refl => exact .inl rfl
  | @tail middle last _ held ih =>
      rcases (growth.holds_iff arranged).1 held with ⟨-, mem⟩ | held
      · exact .inr mem
      · -- What held something before is neither the new node nor its head.
        have live := live_of_isList (arranged.isList_of_mem held)
        rcases ih with rfl | mem
        · exact absurd live growth.unborn
        · exact absurd live (growth.unborn' mem)

/-- A new node is linked into a list. -/
theorem linkAfter (arranged : document.Arranged kids loose) (split : kids list = front ++ back)
    (before : front.getLast? = some prev) :
    (document'.linkAfter prev fresh).Arranged
      ((kids.set fresh inner).set list (front ++ [fresh] ++ back)) loose := by
  have prevMem : prev ∈ kids list := by simp [split, List.mem_of_mem_getLast? before]
  have known := live_of_isList (arranged.isList_of_mem prevMem)
  have split' : (kids.set fresh inner) list = front ++ back := by
    rw [Contents.set_of_ne (growth.ne_fresh known), split]
  have parted : Parted front [fresh] back prev fresh fresh :=
    (growth.result arranged).parted_of_loose (by simp) (List.nodup_singleton fresh) rfl rfl split'
      before
  rw [linkAfter_eq (growth.ne_fresh (arranged.live_of_mem prevMem)) growth.live_fresh]
  refine (growth.result arranged).spliceRunAfter parted split' ⟨growth.links, True.intro⟩ ?_ ?_
  · intro id mem reaches
    rw [List.mem_singleton.1 mem] at reaches
    rcases growth.reaches_fresh arranged reaches with same | mem'
    · exact growth.ne_fresh known same
    · exact growth.unborn' mem' known
  · intro id mem mem'
    rw [List.mem_singleton.1 mem] at mem'
    exact growth.unborn (arranged.loosened fresh mem').1

/-- Linking a new node in changes what the list holds, and no other node. -/
theorem kind?_linkAfter (arranged : document.Arranged kids loose) (mem : prev ∈ kids list)
    (differs : id ≠ list) : (document'.linkAfter prev fresh).kind? id = document'.kind? id := by
  have parent : document'.parent? prev = some list := by
    rw [parent?_eq, growth.links?_eq (arranged.live_of_mem mem), ← parent?_eq]
    exact arranged.parent? mem
  rw [Document.linkAfter, kind?_joinAfter, parent,
    if_neg fun both => differs (Option.some.inj both.2).symm, kind?_setNext, Document.kind?,
    Document.kind?, get?_update]
  split
  · cases document'.get? id <;> rfl
  · rfl

/-- Nodes of other lists and loose nodes stay where they are. -/
theorem links?_linkAfter (arranged : document.Arranged kids loose) (mem : prev ∈ kids list)
    (live : document.Live id) (out : id ∉ kids list) :
    (document'.linkAfter prev fresh).links? id = document.links? id := by
  obtain ⟨init, back, atPrev⟩ := List.append_of_mem mem
  have next : document'.next? prev = back.head? := by
    rw [next?_eq, growth.links?_eq (arranged.live_of_mem mem), ← next?_eq, arranged.next? atPrev]
  refine (Document.links?_linkAfter ?_ (growth.ne_fresh live) ?_).trans (growth.links?_eq live)
  · exact fun same => out (same ▸ mem)
  · rw [next]
    exact head?_ne_of_notMem fun mem' => out (by simp [atPrev, mem'])

/-- A new node leaves all others alone. -/
theorem spares (arranged : document.Arranged kids loose) (mem : prev ∈ kids list)
    (contents : List NodeId) :
    document.Spares (document'.linkAfter prev fresh) kids
      ((kids.set fresh inner).set list contents) list [] := by
  intro id live differs _
  rw [growth.kind?_linkAfter arranged mem differs, growth.kind?_eq live,
    Contents.set_of_ne differs, Contents.set_of_ne (growth.ne_fresh live)]
  exact ⟨rfl, rfl⟩

/-- Once a new node is linked in behind `prev`, it holds what it held before, it is the next in the
list, and all else was left alone. -/
theorem exists_linked (arranged : document.Arranged kids loose) (split : kids list = front ++ back)
    (before : front.getLast? = some prev) :
    ∃ kids', (document'.linkAfter prev fresh).Arranged kids' loose ∧
      kids' list = front ++ [fresh] ++ back ∧ kids' fresh = inner ∧
      (document'.linkAfter prev fresh).kind? fresh = document'.kind? fresh ∧
      document.Spares (document'.linkAfter prev fresh) kids kids' list [] := by
  have mem : prev ∈ kids list := by simp [split, List.mem_of_mem_getLast? before]
  have differs : fresh ≠ list :=
    (growth.ne_fresh (live_of_isList (arranged.isList_of_mem mem))).symm
  refine ⟨_, growth.linkAfter arranged split before, Contents.set_self, ?_,
    growth.kind?_linkAfter arranged mem differs, growth.spares arranged mem _⟩
  rw [Contents.set_of_ne differs, Contents.set_self]

end Grown

theorem not_live_size : ¬ document.Live document.slots.size := fun live =>
  Nat.lt_irrefl _ (lt_size_of_live live)

theorem grown_pushWord (reading : TokenClass) (text : String) :
    document.Grown (document.push { kind := .word reading text }) document.slots.size [] := by
  have here : (document.push { kind := .word reading text }).get? document.slots.size =
      some { kind := .word reading text } := by rw [get?_push, if_pos rfl]
  constructor
  case old =>
    intro id live
    rw [get?_push, if_neg (Nat.ne_of_lt (lt_size_of_live live))]
  case live =>
    intro id live
    by_cases same : id = document.slots.size
    · exact .inr (.inl same)
    · rw [Live, get?_push, if_neg same] at live
      exact .inl live
  case kind => exact .inl ⟨rfl, reading, text, by rw [kind?, here]; rfl⟩
  case links => rw [links?, here]; rfl
  case unborn => exact not_live_size
  case unborn' =>
    intro id mem
    cases mem

theorem grown_pushList :
    document.Grown document.pushList.2 document.slots.size [document.slots.size + 1] := by
  have list : document.pushList.2.get? document.slots.size =
      some { kind := .list (document.slots.size + 1) (document.slots.size + 1) } := by
    rw [pushList, get?_push, if_neg (by simp), get?_push, if_pos rfl]
  have head : document.pushList.2.get? (document.slots.size + 1) =
      some { kind := .head, parent := some document.slots.size } := by
    rw [pushList, get?_push, if_pos (by simp)]
  constructor
  case old =>
    intro id live
    have near := lt_size_of_live live
    rw [pushList, get?_push, size_push, if_neg (Nat.ne_of_lt (Nat.lt_succ_of_lt near)), get?_push,
      if_neg (Nat.ne_of_lt near)]
  case live =>
    intro id live
    have near := lt_size_of_live live
    rw [pushList, size_push, size_push] at near
    rw [List.mem_singleton]
    rcases Nat.lt_succ_iff_lt_or_eq.1 near with near | same
    · rcases Nat.lt_succ_iff_lt_or_eq.1 near with old | same
      · rw [Live, pushList, get?_push, size_push, if_neg (Nat.ne_of_lt near), get?_push,
          if_neg (Nat.ne_of_lt old)] at live
        exact .inl live
      · exact .inr (.inl same)
    · exact .inr (.inr same)
  case kind => exact .inr ⟨_, rfl, by rw [kind?, list]; rfl, head⟩
  case links => rw [links?, list]; rfl
  case unborn => exact not_live_size
  case unborn' =>
    intro id mem live
    rw [List.mem_singleton.1 mem] at live
    exact Nat.not_succ_lt_self (lt_size_of_live live)

/-! ## Insertions -/

namespace Arranged

variable (arranged : document.Arranged kids loose) (split : kids list = front ++ back)
  (before : front.getLast? = some prev)

include arranged split before

theorem insertWordAfter (reading : TokenClass) (text : String) :
    (document.insertWordAfter prev reading text).2.Arranged
      ((kids.set document.slots.size []).set list (front ++ [document.slots.size] ++ back)) loose :=
  (grown_pushWord reading text).linkAfter arranged split before

/-- The new list holds its head, all else is left alone, and what could be reached can be reached
still. -/
theorem insertListAfter :
    ∃ kids', (document.insertListAfter prev).2.Arranged kids' loose ∧
      kids' document.slots.size = [document.slots.size + 1] ∧
      kids' list = front ++ [document.slots.size] ++ back ∧
      document.Spares (document.insertListAfter prev).2 kids kids' list [] ∧
      ∀ {start id}, ReflTransGen kids.Holds start id → ReflTransGen kids'.Holds start id := by
  have mem : prev ∈ kids list := by simp [split, List.mem_of_mem_getLast? before]
  have differs : list ≠ document.slots.size :=
    Nat.ne_of_lt (lt_size_of_live (live_of_isList (arranged.isList_of_mem mem)))
  refine ⟨_, grown_pushList.linkAfter arranged split before, ?_, Contents.set_self,
    grown_pushList.spares arranged mem _, fun reaches => ?_⟩
  · rw [Contents.set_of_ne differs.symm, Contents.set_self]
  · refine Contents.reaches_set_of_subset (fun id mem => ?_)
      (Contents.reaches_set_of_subset (fun id mem => ?_) reaches)
    · rw [Contents.set_of_ne differs, split] at mem
      rcases List.mem_append.1 mem with mem | mem <;> simp [mem]
    · exact absurd (live_of_isList (arranged.isList_of_mem mem)) not_live_size

end Arranged

end Document

end LiveStack
