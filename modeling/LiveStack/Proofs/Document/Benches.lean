import Mathlib.Data.List.Flatten
import LiveStack.Proofs.Document.Quoting

/-!
# Documents at work

Whoever changes a document step by step has runs in hand that are out of it and are not removed yet.
A `Bench` keeps track of them, and `Use` says how the operations are meant to be used: a new node or
a run goes behind a node that is in a list, a run is taken out from one of its nodes to a later one,
it is put back as a whole and not into itself, and only what was taken out is removed. Every bench
that such a use can lead to is in order: its links agree, the runs in hand are chained, and
whatever else there is hangs on the root or on one of them.
-/

namespace LiveStack

open Relation

open Document (root Parted)

/-- A document, and the runs that are out of it but not removed. -/
structure Bench where
  document : Document
  runs : List (List NodeId)

namespace Bench

/-- A node that is in a list. -/
structure Placed (bench : Bench) (id : NodeId) : Prop where
  live : id ∈ bench.document.live
  differs : id ≠ root
  inside : id ∉ bench.runs.flatten

/-- The anchor is not in the run, nor in what the run holds. -/
def Apart (bench : Bench) (run : List NodeId) (anchor : NodeId) : Prop :=
  ∀ id ∈ run, anchor ∉ bench.document.subtree bench.document.chainLimit id

/-- One use of an operation as it is meant. -/
inductive Use (bench : Bench) : Bench → Prop
  | insertWord {anchor : NodeId} (reading : TokenClass) (text : String)
      (placed : bench.Placed anchor) :
      Use bench ⟨(bench.document.insertWordAfter anchor reading text).2, bench.runs⟩
  | insertList {anchor : NodeId} (placed : bench.Placed anchor) :
      Use bench ⟨(bench.document.insertListAfter anchor).2, bench.runs⟩
  | unlink {first last prev : NodeId} {cut : Document} (placed : bench.Placed first)
      (notHead : bench.document.isHead first = false)
      (follows : last ∈ bench.document.siblingsFrom first)
      (taken : bench.document.unlinkRun first last = some (prev, cut)) :
      Use bench ⟨cut, bench.document.run first last :: bench.runs⟩
  | splice {run : List NodeId} {anchor first last : NodeId} (out : run ∈ bench.runs)
      (starts : run.head? = some first) (ends : run.getLast? = some last)
      (placed : bench.Placed anchor) (apart : bench.Apart run anchor) :
      Use bench ⟨bench.document.spliceRunAfter anchor first last, bench.runs.erase run⟩
  | free {id : NodeId} (out : [id] ∈ bench.runs) :
      Use bench ⟨bench.document.free id, bench.runs.erase [id]⟩
  | freeRun {run : List NodeId} {first last : NodeId} (out : run ∈ bench.runs)
      (starts : run.head? = some first) (ends : run.getLast? = some last) :
      Use bench ⟨bench.document.freeRun first last, bench.runs.erase run⟩
  /-- A list with nothing in it is removed. -/
  | freeShell {list : NodeId} (out : [list] ∈ bench.runs)
      (isList : bench.document.isList list = true) (bare : bench.document.children list = []) :
      Use bench ⟨bench.document.freeShell list, bench.runs.erase [list]⟩
  /-- A list is removed, and its children go elsewhere straight from it. -/
  | unwrap {list anchor first last : NodeId} (out : [list] ∈ bench.runs)
      (starts : (bench.document.children list).head? = some first)
      (ends : (bench.document.children list).getLast? = some last)
      (placed : bench.Placed anchor) (apart : bench.Apart [list] anchor) :
      Use bench ⟨(bench.document.spliceRunAfter anchor first last).freeShell list,
        bench.runs.erase [list]⟩
  | clear : Use bench ⟨bench.document.clear, bench.runs⟩
  | reclassify (classify : String → TokenClass) :
      Use bench ⟨bench.document.reclassify classify, bench.runs⟩

/-- What can be made of an empty document. -/
def Reached (bench : Bench) : Prop := ReflTransGen Use ⟨.empty, []⟩ bench

/-- The links say what `kids` says, and the runs in hand are chained and apart. -/
structure Orderly (bench : Bench) (kids : Contents) : Prop where
  arranged : bench.document.Arranged kids bench.runs.flatten
  chained : ∀ run ∈ bench.runs, ∃ parent, bench.document.Chained parent none run none
  nodup : bench.runs.flatten.Nodup

end Bench

namespace Document

variable {document : Document} {kids : Contents} {loose : List NodeId} {list first last : NodeId}

/-- A run from a node to a later one is a part of their list, and not the first part. -/
theorem Arranged.exists_parted (arranged : document.Arranged kids loose) (mem : first ∈ kids list)
    (notHead : document.isHead first = false) (follows : last ∈ document.siblingsFrom first) :
    ∃ front back prev, kids list = front ++ document.run first last ++ back ∧
      Parted front (document.run first last) back prev first last := by
  obtain ⟨front, rest, split⟩ := List.append_of_mem mem
  obtain ⟨prev, before⟩ := arranged.exists_before split (by simpa [isHead] using notHead)
  have siblings := arranged.siblingsFrom split
  rw [siblings] at follows
  obtain ⟨init, back, split', -⟩ := List.eq_append_cons_of_mem follows
  have nodup := arranged.nodup list
  have whole : first :: rest = (init ++ [last]) ++ back := by simp [split']
  rw [whole] at split siblings
  rw [split, ← List.append_assoc] at nodup
  have ends : (init ++ [last]).getLast? = some last := List.getLast?_concat
  have starts : (init ++ [last]).head? = some first := by
    have := congrArg List.head? whole
    cases init <;> simpa [eq_comm] using this
  have same : document.run first last = init ++ [last] :=
    run_eq siblings (List.nodup_append.1 (List.nodup_append.1 nodup).1).2.1 ends
  rw [same]
  exact ⟨front, back, prev, by rw [split, ← List.append_assoc], nodup, before, starts, ends⟩

end Document

namespace Bench

variable {bench bench' : Bench} {document' : Document} {kids kids' : Contents}
  {runs : List (List NodeId)} {run inner front back : List NodeId}
  {list anchor fresh first last prev id : NodeId}

namespace Orderly

variable (orderly : bench.Orderly kids)

include orderly

/-! ## The runs in hand -/

theorem exists_list (placed : bench.Placed id) : ∃ list, id ∈ kids list :=
  orderly.arranged.exists_list_of_placed (Document.mem_live.1 placed.live) placed.differs
    placed.inside

/-- The place behind a node that is in a list. -/
theorem exists_behind (placed : bench.Placed anchor) : ∃ list front back,
    anchor ∈ kids list ∧ kids list = front ++ back ∧ front.getLast? = some anchor := by
  obtain ⟨list, mem⟩ := orderly.exists_list placed
  obtain ⟨front, back, split⟩ := List.append_of_mem mem
  exact ⟨list, front ++ [anchor], back, mem, by simp [split], List.getLast?_concat⟩

omit orderly in
theorem mem_flatten (out : run ∈ bench.runs) (mem : id ∈ run) : id ∈ bench.runs.flatten :=
  List.mem_flatten.2 ⟨run, out, mem⟩

omit orderly in
theorem perm_erase (out : run ∈ bench.runs) :
    bench.runs.flatten.Perm (run ++ (bench.runs.erase run).flatten) :=
  (List.perm_cons_erase out).flatten

theorem nodup_run (out : run ∈ bench.runs) : run.Nodup :=
  (List.nodup_append.1 ((perm_erase out).nodup_iff.1 orderly.nodup)).1

/-- The other runs have nothing in common with one of them. -/
theorem mem_erase (out : run ∈ bench.runs) :
    id ∈ (bench.runs.erase run).flatten ↔ id ∈ bench.runs.flatten ∧ id ∉ run := by
  have apart := (List.nodup_append.1 ((perm_erase out).nodup_iff.1 orderly.nodup)).2.2
  rw [(perm_erase out).mem_iff, List.mem_append]
  constructor
  · exact fun mem => ⟨.inr mem, fun mem' => apart id mem' id mem rfl⟩
  · exact fun ⟨either, notMem⟩ => either.resolve_left notMem

/-- A node that is apart from a run is not held by it. -/
theorem not_reaches (apart : bench.Apart run anchor) (mem : id ∈ run) :
    ¬ ReflTransGen kids.Holds id anchor := fun reaches =>
  apart id mem (orderly.arranged.mem_subtree.2 reaches)

/-- What one run holds is not in another. -/
theorem not_reaches_of_erase (out : run ∈ bench.runs) {start : NodeId} (mem : start ∈ run)
    (other : id ∈ (bench.runs.erase run).flatten) : ¬ ReflTransGen kids.Holds start id := by
  intro reaches
  obtain ⟨mem', notMem⟩ := (orderly.mem_erase out).1 other
  have same := orderly.arranged.apart_of_start
    (List.mem_cons_of_mem _ (mem_flatten out mem)) (List.mem_cons_of_mem _ mem') reaches
    .refl
  exact notMem (same ▸ mem)

/-- What is left of the runs stays in order, if the links of their nodes stay. -/
theorem of_links (arranged : document'.Arranged kids' runs.flatten)
    (among : runs.Sublist bench.runs)
    (links : ∀ id ∈ runs.flatten, document'.links? id = bench.document.links? id) :
    Orderly ⟨document', runs⟩ kids' := by
  refine ⟨arranged, fun run out => ?_, orderly.nodup.sublist among.flatten⟩
  obtain ⟨parent, chained⟩ := orderly.chained run (among.subset out)
  exact ⟨parent, chained.congr fun id mem => links id (List.mem_flatten.2 ⟨run, out, mem⟩)⟩

/-! ## One use -/

/-- A new node is linked in behind a node that is in a list. -/
theorem grown (growth : bench.document.Grown document' fresh inner) (placed : bench.Placed anchor) :
    ∃ kids', Orderly ⟨document'.linkAfter anchor fresh, bench.runs⟩ kids' := by
  obtain ⟨list, front, back, mem, split, before⟩ := orderly.exists_behind placed
  have linked := growth.linkAfter orderly.arranged split before
  refine ⟨_, orderly.of_links linked (List.Sublist.refl _) fun id out => ?_⟩
  exact growth.links?_linkAfter orderly.arranged mem (orderly.arranged.loosened id out).1
    fun mem' => orderly.arranged.notMem_loose mem' out

theorem unlink {cut : Document} (placed : bench.Placed first)
    (notHead : bench.document.isHead first = false)
    (follows : last ∈ bench.document.siblingsFrom first)
    (taken : bench.document.unlinkRun first last = some (prev, cut)) :
    ∃ kids', Orderly ⟨cut, bench.document.run first last :: bench.runs⟩ kids' := by
  have arranged := orderly.arranged
  obtain ⟨list, mem⟩ := orderly.exists_list placed
  obtain ⟨front, back, prev', split, parted⟩ := arranged.exists_parted mem notHead follows
  have cutting := arranged.rearranged_cutRun parted split
  have chained := arranged.chained list
  rw [split] at chained
  rw [arranged.unlinkRun_eq parted split] at taken
  cases taken
  have away : ∀ {id}, id ∈ bench.runs.flatten → id ∉ kids list :=
    fun out mem => arranged.notMem_loose mem out
  refine ⟨_, cutting.result arranged, fun run out => ?_, ?_⟩
  · rcases List.mem_cons.1 out with rfl | out
    · exact ⟨_, (Document.chained_cutRun parted chained).2⟩
    · -- The other runs in hand have no node in the list, and so are as they were.
      obtain ⟨parent, chained⟩ := orderly.chained run out
      refine ⟨parent, chained.congr fun id mem' => ?_⟩
      have nowhere := away (mem_flatten out mem')
      exact cutting.links id nowhere fun mem'' => nowhere (Document.mem_of_split split mem'')
  · rw [List.flatten_cons, List.nodup_append]
    refine ⟨parted.nodup_run, orderly.nodup, ?_⟩
    rintro id mem' _ out rfl
    exact away out (by simp [split, mem'])

theorem splice (out : run ∈ bench.runs) (starts : run.head? = some first)
    (ends : run.getLast? = some last) (placed : bench.Placed anchor)
    (apart : bench.Apart run anchor) :
    ∃ kids', Orderly ⟨bench.document.spliceRunAfter anchor first last, bench.runs.erase run⟩
      kids' := by
  obtain ⟨list, front, back, mem, split, before⟩ := orderly.exists_behind placed
  obtain ⟨parent, chained⟩ := orderly.chained run out
  have parted := orderly.arranged.parted_of_loose (fun id mem => mem_flatten out mem)
    (orderly.nodup_run out) starts ends split before
  have arranged := orderly.arranged.of_mem_iff fun id => ((perm_erase out).mem_iff (a := id)).symm
  have pasting := arranged.rearranged_pasteRun parted split chained
    (fun id mem' reaches => orderly.not_reaches apart mem' (reaches.tail mem))
    (fun id mem' mem'' => ((orderly.mem_erase out).1 mem'').2 mem')
  rw [← arranged.spliceRunAfter_eq parted split chained] at pasting
  refine ⟨_, orderly.of_links (pasting.result arranged) (List.erase_sublist ..) fun id other => ?_⟩
  obtain ⟨-, notMem⟩ := (orderly.mem_erase out).1 other
  have away : ∀ {list}, id ∉ kids list := fun mem =>
    arranged.notMem_loose mem (List.mem_append_right _ other)
  exact pasting.links id away (Document.notMem_of_split split away notMem)

/-- One of the runs is removed, with all that it holds. -/
theorem freed (out : run ∈ bench.runs) (removal : bench.document.Freed document' kids run) :
    ∃ kids', Orderly ⟨document', bench.runs.erase run⟩ kids' := by
  obtain ⟨kids', arranged, kept⟩ := removal.exists_left orderly.arranged
    (fun id mem => mem_flatten out mem) fun id => orderly.mem_erase out
  refine ⟨kids', orderly.of_links arranged (List.erase_sublist ..) fun id other => ?_⟩
  rw [Document.links?, Document.links?,
    (kept id fun start mem => orderly.not_reaches_of_erase out mem other).1]

theorem freeShell (out : [list] ∈ bench.runs) (isList : bench.document.isList list = true)
    (bare : bench.document.children list = []) :
    ∃ kids', Orderly ⟨bench.document.freeShell list, bench.runs.erase [list]⟩ kids' := by
  obtain ⟨head, rest, split, -⟩ := orderly.arranged.exists_head isList
  rw [orderly.arranged.children_eq_tail, split, List.tail_cons] at bare
  rw [bare] at split
  exact orderly.freed out (orderly.arranged.freeShell_freed split)

theorem unwrap (out : [list] ∈ bench.runs)
    (starts : (bench.document.children list).head? = some first)
    (ends : (bench.document.children list).getLast? = some last) (placed : bench.Placed anchor)
    (apart : bench.Apart [list] anchor) :
    ∃ kids', Orderly ⟨(bench.document.spliceRunAfter anchor first last).freeShell list,
      bench.runs.erase [list]⟩ kids' := by
  obtain ⟨outer, front, back, mem, split, before⟩ := orderly.exists_behind placed
  have parted := orderly.arranged.parted_of_loose (fun id mem => mem_flatten out mem)
    (List.nodup_singleton list) rfl rfl split before
  have arranged := orderly.arranged.of_mem_iff fun id => ((perm_erase out).mem_iff (a := id)).symm
  have single : list ∉ (bench.runs.erase [list]).flatten := fun mem =>
    ((orderly.mem_erase out).1 mem).2 List.mem_cons_self
  have outside : ¬ ReflTransGen kids.Holds list outer := fun reaches =>
    orderly.not_reaches apart List.mem_cons_self (reaches.tail mem)
  rw [arranged.children_eq_tail] at starts ends
  cases split' : kids list with
  | nil => simp [split'] at starts
  | cons head rest =>
      rw [split', List.tail_cons] at starts ends
      obtain ⟨kids', arranged', -, -, links⟩ :=
        arranged.unquoteList single parted split split' starts ends outside
      exact ⟨kids', orderly.of_links arranged' (List.erase_sublist ..) links⟩

/-- What is in hand stays in hand when the document is cleared. -/
theorem clear : ∃ kids', Orderly ⟨bench.document.clear, bench.runs⟩ kids' := by
  have arranged := orderly.arranged
  obtain ⟨head, rest, split, -⟩ := arranged.exists_head arranged.rooted
  have held : ∀ {id}, id ∈ head :: rest → id ∈ kids root := fun mem => split ▸ mem
  have emptying := arranged.rearranged_clear split
  have emptied := emptying.result arranged
  have loose : ∀ id ∈ bench.runs.flatten, id ∉ rest := fun id out mem =>
    arranged.notMem_loose (held (List.mem_cons_of_mem _ mem)) out
  obtain ⟨kids', arranged', kept⟩ := (arranged.clear_freed split).exists_left emptied
    (fun id mem => List.mem_append_left _ mem) (Document.mem_iff_of_apart loose)
  refine ⟨kids', orderly.of_links arranged' (List.Sublist.refl _) fun id out => ?_⟩
  have notHead : id ≠ head := fun same =>
    arranged.notMem_loose (held (by simp [same])) out
  have apart : ∀ start ∈ rest, ¬ ReflTransGen (kids.set root [head]).Holds start id := by
    intro start mem reaches
    have same := emptied.apart_of_start (by simp [mem]) (by simp [out]) reaches .refl
    exact loose id out (same ▸ mem)
  rw [Document.links?, (kept id apart).1, ← Document.links?,
    emptying.links id (fun mem => arranged.notMem_loose mem out) (by simpa using notHead)]

/-- A use leads from order to order. -/
theorem step (use : Use bench bench') : ∃ kids', bench'.Orderly kids' := by
  cases use with
  | insertWord reading text placed =>
      exact orderly.grown (Document.grown_pushWord reading text) placed
  | insertList placed => exact orderly.grown Document.grown_pushList placed
  | unlink placed notHead follows taken => exact orderly.unlink placed notHead follows taken
  | splice out starts ends placed apart => exact orderly.splice out starts ends placed apart
  | free out =>
      exact orderly.freed out (orderly.arranged.foldl_free_freed_of_loose (List.nodup_singleton _)
        fun id mem => mem_flatten out mem)
  | @freeRun run first last out starts ends =>
      obtain ⟨parent, chained⟩ := orderly.chained run out
      exact orderly.freed out (orderly.arranged.freeRun_freed (orderly.nodup_run out)
        (fun id mem => mem_flatten out mem) chained starts ends)
  | freeShell out isList bare => exact orderly.freeShell out isList bare
  | unwrap out starts ends placed apart => exact orderly.unwrap out starts ends placed apart
  | clear => exact orderly.clear
  | reclassify classify =>
      exact ⟨kids, orderly.of_links (orderly.arranged.reclassify classify) (List.Sublist.refl _)
        fun id _ => Document.links?_reclassify classify⟩

end Orderly

/-- Whatever is made of an empty document is in order. -/
theorem Reached.orderly (reached : bench.Reached) : ∃ kids, bench.Orderly kids := by
  induction reached with
  | refl =>
      refine ⟨_, Document.arranged_empty, fun run out => ?_, List.nodup_nil⟩
      cases out
  | tail _ use ih =>
      obtain ⟨kids, orderly⟩ := ih
      exact orderly.step use

end Bench

end LiveStack
