import LiveStack.Proofs.Document.Benches
import LiveStack.Proofs.Document.Outlining
import LiveStack.Proofs.Document.Strict

/-!
# Moving a run

To move a run of siblings is to take it out and to put it in behind another node, in the same list
or in any other that is not in the run. Both steps give one list new contents, and each can be said
node by node: a node of the run is left out wherever it is, and the anchor is followed by the run
wherever that is. So the same can be said of the outline (`Rearranged.outlined`), whichever lists
the two are, and where the outline shows the run it shows all that is in it as before.
-/

namespace LiveStack

open Relation

namespace Outline

mutual

/-- The node, with what is in it rebuilt. -/
def rebuildInside (change : Outline → List Outline) : Outline → Outline
  | .head id => .head id
  | .word id reading text => .word id reading text
  | .list id items => .list id (rebuild change items)

/-- Every node is replaced by some nodes, once all that is in it has been. -/
def rebuild (change : Outline → List Outline) : List Outline → List Outline
  | [] => []
  | item :: rest => change (item.rebuildInside change) ++ rebuild change rest

end

/-- What is left when the nodes of a run are taken out, wherever they are. -/
def takeOut (run : List NodeId) : List Outline → List Outline :=
  rebuild fun item => if item.id ∈ run then [] else [item]

/-- The items `taken` right behind the anchor, wherever that is. -/
def putBehind (anchor : NodeId) (taken : List Outline) : List Outline → List Outline :=
  rebuild fun item => if item.id = anchor then item :: taken else [item]

end Outline

namespace Document

open Outline (takeOut putBehind)

variable {document document' : Document} {kids kids' : Contents} {loose loose' : List NodeId}
  {ids ids' front run back contents : List NodeId} {list anchor prev first last id : NodeId}
  {items taken : List Outline}

/-! ## Lists that change node by node -/

/-- Nodes that stand for themselves. -/
theorem flatMap_alone {replaced : NodeId → List NodeId} (alone : ∀ id ∈ ids, replaced id = [id]) :
    ids.flatMap replaced = ids :=
  (List.flatMap_congr alone).trans (List.flatMap_singleton' ids)

theorem flatMap_out (apart : ∀ id ∈ ids, id ∉ run) :
    ids.flatMap (fun id => if id ∈ run then [] else [id]) = ids :=
  flatMap_alone fun id mem => if_neg (apart id mem)

theorem flatMap_behind (apart : anchor ∉ ids) :
    ids.flatMap (fun id => if id = anchor then id :: run else [id]) = ids :=
  flatMap_alone fun _ mem => if_neg (ne_of_mem_of_not_mem mem apart)

namespace Parted

variable (parted : Parted front run back prev first last)

include parted

/-- A list without the run. -/
theorem flatMap_out :
    (front ++ run ++ back).flatMap (fun id => if id ∈ run then [] else [id]) = front ++ back := by
  have gone : run.flatMap (fun id => if id ∈ run then [] else [id]) = [] :=
    List.flatMap_eq_nil_iff.2 fun id mem => if_pos mem
  rw [List.flatMap_append, List.flatMap_append, gone, List.append_nil,
    Document.flatMap_out fun id mem => (parted.front_out mem).1,
    Document.flatMap_out fun id mem mem' => (parted.run_out mem').2 mem]

/-- A list with the run behind its node. -/
theorem flatMap_behind :
    (front ++ back).flatMap (fun id => if id = prev then id :: run else [id]) =
      front ++ run ++ back := by
  obtain ⟨init, rfl, notMem⟩ := parted.exists_front
  rw [List.flatMap_append, List.flatMap_append, Document.flatMap_behind notMem,
    Document.flatMap_behind (parted.front_out parted.prev_mem).2]
  simp

end Parted

/-! ## Outlines that change node by node -/

/-- The first of the items show the first of the nodes. -/
theorem Outlined.take (shown : document.Outlined kids (ids ++ ids') items) :
    document.Outlined kids ids (items.take ids.length) := by
  induction ids generalizing items with
  | nil => exact .nil
  | cons id ids ih =>
      cases shown with
      | head kind rest => exact .head kind (ih rest)
      | word kind rest => exact .word kind (ih rest)
      | list kind inside rest => exact .list kind inside (ih rest)

/-- Where a list gets new contents, node by node, so does the outline. -/
theorem Rearranged.outlined {change : Outline → List Outline} {replaced : NodeId → List NodeId}
    (rearranged : document.Rearranged document' kids loose loose' list contents)
    (arranged : document.Arranged kids loose) (shown : document.Outlined kids ids items)
    (lists : ∀ other, (kids.set list contents) other = (kids other).flatMap replaced)
    (each : ∀ id item, document'.Outlined (kids.set list contents) [id] [item] →
      document'.Outlined (kids.set list contents) (replaced id) (change item)) :
    document'.Outlined (kids.set list contents) (ids.flatMap replaced)
      (Outline.rebuild change items) := by
  -- The list that changed is a list still, so heads and words are what they were.
  have plain : ∀ {id kind}, document.kind? id = some kind →
      (∀ first last, kind ≠ .list first last) → document'.kind? id = some kind := by
    intro id kind found noList
    refine (rearranged.kinds id ?_).trans found
    rintro rfl
    obtain ⟨first, last, found'⟩ := isList_iff.1 (rearranged.isList_before arranged)
    exact noList first last (Option.some.inj (found.symm.trans found'))
  induction shown with
  | nil => exact .nil
  | head kind _ ih =>
      have kind' := plain kind fun _ _ => NodeKind.noConfusion
      exact (each _ _ (.head kind' .nil)).append ih
  | word kind _ ih =>
      have kind' := plain kind fun _ _ => NodeKind.noConfusion
      exact (each _ _ (.word kind' .nil)).append ih
  | @list id first last ids inner items kind _ _ ih ih' =>
      have isList : document'.isList id = true := by
        by_cases same : id = list
        · exact same ▸ rearranged.isList
        · rw [rearranged.isList_of_ne same]
          exact isList_iff.2 ⟨first, last, kind⟩
      obtain ⟨first', last', kind'⟩ := isList_iff.1 isList
      rw [← lists] at ih
      exact (each _ _ (.list kind' ih .nil)).append ih'

/-- The run is taken out of the outline where it is taken out of its list. -/
theorem Rearranged.outlined_takeOut
    (rearranged : document.Rearranged document' kids loose loose' list (front ++ back))
    (arranged : document.Arranged kids loose) (parted : Parted front run back prev first last)
    (split : kids list = front ++ run ++ back) (shown : document.Outlined kids (kids id) items) :
    document'.Outlined (kids.set list (front ++ back)) ((kids.set list (front ++ back)) id)
      (takeOut run items) := by
  have lists : ∀ other, (kids.set list (front ++ back)) other =
      (kids other).flatMap fun id => if id ∈ run then [] else [id] := by
    intro other
    rcases eq_or_ne other list with rfl | differs
    · rw [Contents.set_self, split, parted.flatMap_out]
    · rw [Contents.set_of_ne differs, flatMap_out]
      intro id mem mem'
      exact differs (arranged.single mem (show id ∈ kids list by simp [split, mem']))
  rw [lists]
  refine rearranged.outlined arranged shown lists fun id item shown => ?_
  rw [List.cons.inj shown.ids_eq |>.1]
  split
  · exact .nil
  · exact shown

/-- The run is put into the outline where it is put into a list. -/
theorem Rearranged.outlined_putBehind
    (rearranged : document.Rearranged document' kids loose loose' list (front ++ run ++ back))
    (arranged : document.Arranged kids loose) (parted : Parted front run back anchor first last)
    (split : kids list = front ++ back) (shown : document.Outlined kids (kids id) items)
    (shown' : document'.Outlined (kids.set list (front ++ run ++ back)) run taken) :
    document'.Outlined (kids.set list (front ++ run ++ back))
      ((kids.set list (front ++ run ++ back)) id) (putBehind anchor taken items) := by
  have mem : anchor ∈ kids list := by simp [split, parted.prev_mem]
  have lists : ∀ other, (kids.set list (front ++ run ++ back)) other =
      (kids other).flatMap fun id => if id = anchor then id :: run else [id] := by
    intro other
    rcases eq_or_ne other list with rfl | differs
    · rw [Contents.set_self, split, parted.flatMap_behind]
    · rw [Contents.set_of_ne differs, flatMap_behind]
      exact fun mem' => differs (arranged.single mem' mem)
  rw [lists]
  refine rearranged.outlined arranged shown lists fun id item shown => ?_
  rw [List.cons.inj shown.ids_eq |>.1]
  split
  · exact shown.append shown'
  · exact shown

/-- The second document is the first with a run of siblings somewhere else: it reads like the first,
but the run, with all that is in it, comes right behind the anchor. -/
structure MovesRun (document : Document) (first last anchor : NodeId) (moved : Document) :
    Prop where
  consistent : moved.isConsistent = true
  live : moved.live = document.live
  outline : moved.outline =
    putBehind anchor ((document.outlineFrom first).take (document.run first last).length)
      (takeOut (document.run first last) document.outline)
  /-- The nodes of the run are in the list of the anchor. -/
  parents : ∃ list, document.parent? anchor = some list ∧ moved.parent? anchor = some list ∧
    ∀ id ∈ document.run first last, moved.parent? id = some list
  /-- All other lists hold what they held. -/
  others : ∀ list, document.parent? first ≠ some list → document.parent? anchor ≠ some list →
    moved.children list = document.children list

/-! ## A run on its way -/

/-- A run that was taken out of one list, and the place that it goes to, in the same list or in
another that is not in the run. -/
structure Transfer (document cut : Document) (kids : Contents) (source target : NodeId)
    (front run back front' back' : List NodeId) (prev anchor first last : NodeId) : Prop where
  arranged : document.Arranged kids []
  parted : Parted front run back prev first last
  split : kids source = front ++ run ++ back
  taken : document.unlinkRun first last = some (prev, cut)
  parted' : Parted front' run back' anchor first last
  split' : (kids.set source (front ++ back)) target = front' ++ back'
  outside : ∀ id ∈ run, ¬ ReflTransGen kids.Holds id target

variable {cut : Document} {source target : NodeId} {front' back' : List NodeId}

theorem Arranged.exists_transfer (arranged : document.Arranged kids []) (mem : first ∈ kids source)
    (notHead : document.isHead first = false) (follows : last ∈ document.siblingsFrom first)
    (mem' : anchor ∈ kids target)
    (apart : ∀ id ∈ document.run first last, ¬ ReflTransGen kids.Holds id anchor) :
    ∃ cut front back front' back' prev, document.Transfer cut kids source target front
      (document.run first last) back front' back' prev anchor first last := by
  obtain ⟨front, back, prev, split, parted⟩ := arranged.exists_parted mem notHead follows
  have loose := (arranged.rearranged_cutRun parted split).result arranged
  have left : anchor ∈ (kids.set source (front ++ back)) target := by
    by_cases same : target = source
    · subst same
      have out : anchor ∉ document.run first last := fun mem => apart anchor mem .refl
      simpa [split, out] using mem'
    · rwa [Contents.set_of_ne same]
  obtain ⟨front', back', split'⟩ := List.append_of_mem left
  have split' : (kids.set source (front ++ back)) target = (front' ++ [anchor]) ++ back' := by
    simp [split']
  refine ⟨_, front, back, front' ++ [anchor], back', prev, arranged, parted, split,
    arranged.unlinkRun_eq parted split, ?_, split',
    fun id mem reaches => apart id mem (reaches.tail mem')⟩
  exact loose.parted_of_loose (fun id mem => by simp [mem]) parted.nodup_run parted.starts
    parted.ends split' List.getLast?_concat

namespace Transfer

variable (transfer : document.Transfer cut kids source target front run back front' back' prev
  anchor first last)

include transfer

theorem cut_eq : cut = document.cutRun (some source) prev first last back.head? := by
  have taken := transfer.taken
  rw [transfer.arranged.unlinkRun_eq transfer.parted transfer.split] at taken
  exact (Prod.mk.inj (Option.some.inj taken)).2.symm

theorem cutting : document.Rearranged cut kids [] run source (front ++ back) := by
  have cutting := transfer.arranged.rearranged_cutRun transfer.parted transfer.split
  rwa [List.append_nil, ← transfer.cut_eq] at cutting

theorem arranged_cut : cut.Arranged (kids.set source (front ++ back)) run :=
  transfer.cutting.result transfer.arranged

theorem anchor_left : anchor ∈ (kids.set source (front ++ back)) target := by
  rw [transfer.split']
  exact List.mem_append_left _ transfer.parted'.prev_mem

theorem chained : cut.Chained (some source) none run none := by
  have chained := transfer.arranged.chained source
  rw [transfer.split] at chained
  rw [transfer.cut_eq]
  exact (chained_cutRun transfer.parted chained).2

theorem spliceRunAfter_eq : cut.spliceRunAfter anchor first last =
    cut.pasteRun (some target) anchor run first last back'.head? :=
  transfer.arranged_cut.spliceRunAfter_eq transfer.parted' transfer.split' transfer.chained

theorem pasting : cut.Rearranged (cut.spliceRunAfter anchor first last)
    (kids.set source (front ++ back)) run [] target (front' ++ run ++ back') := by
  have inside : ∀ id ∈ front ++ back, id ∈ kids source := fun _ => mem_of_split transfer.split
  have arranged := transfer.arranged_cut
  rw [← run.append_nil] at arranged
  have pasting := arranged.rearranged_pasteRun transfer.parted' transfer.split' transfer.chained
    (fun id mem reaches => transfer.outside id mem (Contents.reaches_of_set inside reaches))
    (fun _ _ => List.not_mem_nil)
  rwa [List.append_nil, ← transfer.spliceRunAfter_eq] at pasting

theorem arranged_moved : (cut.spliceRunAfter anchor first last).Arranged
    ((kids.set source (front ++ back)).set target (front' ++ run ++ back')) [] :=
  transfer.pasting.result transfer.arranged_cut

/-- What is neither of the two lists holds what it held. -/
theorem kept (notSource : id ≠ source) (notTarget : id ≠ target) :
    (cut.spliceRunAfter anchor first last).kind? id = document.kind? id ∧
      ((kids.set source (front ++ back)).set target (front' ++ run ++ back')) id = kids id := by
  rw [transfer.pasting.kinds id notTarget, transfer.cutting.kinds id notSource,
    Contents.set_of_ne notTarget, Contents.set_of_ne notSource]
  exact ⟨rfl, rfl⟩

theorem live_eq : (cut.spliceRunAfter anchor first last).live = document.live :=
  live_eq_of_iff fun _ => (transfer.pasting.live_iff transfer.arranged_cut).trans
    (transfer.cutting.live_iff transfer.arranged)

/-- The outline without the run, and the run with all that was in it behind the anchor. -/
theorem outline_eq : (cut.spliceRunAfter anchor first last).outline =
    putBehind anchor ((document.outlineFrom first).take run.length)
      (takeOut run document.outline) := by
  have arranged := transfer.arranged
  obtain ⟨middle, starts, -⟩ := transfer.parted.exists_tail
  have whole := arranged.outlineFrom_outlined
    (show kids source = front ++ first :: (middle ++ back) by simp [transfer.split, starts])
  have shown : document.Outlined kids run ((document.outlineFrom first).take run.length) := by
    rw [← List.cons_append, ← starts] at whole
    exact whole.take
  have held : ∀ {id}, id ∈ run → id ∈ kids source := fun mem => by simp [transfer.split, mem]
  have shown' := shown.congr fun start mem id reaches => transfer.kept
    (fun same => arranged.acyclic (held mem) (same ▸ reaches))
    (fun same => transfer.outside start mem (same ▸ reaches))
  refine transfer.arranged_moved.outline_outlined.unique ?_
  exact transfer.pasting.outlined_putBehind transfer.arranged_cut transfer.parted' transfer.split'
    (transfer.cutting.outlined_takeOut arranged transfer.parted transfer.split
      arranged.outline_outlined) shown'

/-- A run that goes back behind the node that was before it leaves no trace. -/
theorem moved_eq (returns : anchor = prev) : cut.spliceRunAfter anchor first last = document := by
  subst returns
  have held : anchor ∈ kids source := by simp [transfer.split, transfer.parted.prev_mem]
  obtain rfl : target = source := by
    refine transfer.arranged_cut.single transfer.anchor_left ?_
    rw [Contents.Holds, Contents.set_self]
    exact List.mem_append_left _ transfer.parted.prev_mem
  -- The anchor is in the list once, so what is in front of it and behind it is the same.
  have notBack := (transfer.parted.front_out transfer.parted.prev_mem).2
  obtain ⟨init, rfl, notMem⟩ := transfer.parted.exists_front
  obtain ⟨init', rfl, -⟩ := transfer.parted'.exists_front
  have same : init ++ anchor :: back = init' ++ anchor :: back' := by
    simpa using transfer.split'
  obtain ⟨rfl, -, rfl⟩ := (List.append_cons_inj_of_notMem notMem notBack).1 same
  have spares : document.Spares (cut.spliceRunAfter anchor first last) kids _ target [] :=
    fun id _ differs _ => transfer.kept differs differs
  have restored := spares.restored (Contents.set_self.trans transfer.split.symm) transfer.arranged
    transfer.arranged_moved held
  refine ext_of_get? ?_ restored.nodes
  rw [transfer.spliceRunAfter_eq, size_pasteRun, transfer.cut_eq, size_cutRun]

theorem anchor_mem : anchor ∈ kids target := by
  have left := transfer.anchor_left
  by_cases same : target = source
  · subst same
    rw [Contents.set_self] at left
    exact mem_of_split transfer.split left
  · rwa [Contents.set_of_ne same] at left

theorem movesRun (whole : document.run first last = run) :
    document.MovesRun first last anchor (cut.spliceRunAfter anchor first last) := by
  have first_mem : first ∈ kids source := by simp [transfer.split, transfer.parted.first_mem]
  have moved := transfer.arranged_moved
  constructor
  case consistent => exact moved.isConsistent
  case live => exact transfer.live_eq
  case outline => rw [whole, transfer.outline_eq]
  case parents =>
    refine ⟨target, transfer.arranged.parent? transfer.anchor_mem, moved.parent? ?_, ?_⟩
    · simp [transfer.parted'.prev_mem]
    · intro id mem
      rw [whole] at mem
      exact moved.parent? (by simp [mem])
  case others =>
    intro list notSource notTarget
    rw [transfer.arranged.parent? first_mem, ne_eq, Option.some.injEq] at notSource
    rw [transfer.arranged.parent? transfer.anchor_mem, ne_eq, Option.some.injEq] at notTarget
    rw [moved.children_eq_tail, transfer.arranged.children_eq_tail,
      (transfer.kept (Ne.symm notSource) (Ne.symm notTarget)).2]

end Transfer

end Document

namespace Bench

variable {bench : Bench} {first last anchor : NodeId}

/-- **Moving a run of siblings is exact.** Where nothing is out of the document, a run of siblings
that begins with no head goes behind any node that is neither in the run nor below it. It can be
taken out and put in without a look at a node that was removed, and then the links agree, the same
nodes are there, and the document reads as before but for the run, which comes right behind the
anchor, in its list, with all that is in it. Behind the node that it was taken out from behind, the
run leaves the document as it was. -/
theorem moving_is_exact (reached : bench.Reached) (nothing : bench.runs = [])
    (placed : bench.Placed first) (notHead : bench.document.isHead first = false)
    (follows : last ∈ bench.document.siblingsFrom first) (placed' : bench.Placed anchor)
    (apart : bench.Apart (bench.document.run first last) anchor) :
    bench.document.isConsistent = true ∧ ∃ prev cut,
      bench.document.unlinkRun first last = some (prev, cut) ∧
      Document.Strict.unlinkRun bench.document first last = some (some (prev, cut)) ∧
      Document.Strict.spliceRunAfter cut anchor first last =
        some (cut.spliceRunAfter anchor first last) ∧
      bench.document.MovesRun first last anchor (cut.spliceRunAfter anchor first last) ∧
      (anchor = prev → cut.spliceRunAfter anchor first last = bench.document) := by
  obtain ⟨kids, orderly⟩ := reached.orderly
  have arranged := orderly.arranged
  rw [nothing] at arranged
  obtain ⟨source, mem⟩ := orderly.exists_list placed
  obtain ⟨target, mem'⟩ := orderly.exists_list placed'
  obtain ⟨cut, front, back, front', back', prev, transfer⟩ :=
    arranged.exists_transfer mem notHead follows mem' fun id => orderly.not_reaches apart
  refine ⟨arranged.isConsistent, prev, cut, transfer.taken, ?_, ?_, transfer.movesRun rfl,
    transfer.moved_eq⟩
  · rw [Document.Strict.unlinkRun_eq arranged transfer.parted transfer.split, transfer.taken]
  · exact Document.Strict.spliceRunAfter_eq transfer.arranged_cut transfer.anchor_left
      transfer.chained transfer.parted.nodup_run transfer.parted.starts transfer.parted.ends

/-- Two words in front of an empty list go into it. -/
theorem moving_is_exact_of_words_into_list :
    let one := (Document.empty.insertWordAfter 1 .unknown "one").2
    let two := (one.insertWordAfter 2 .unknown "two").2
    let document := (two.insertListAfter 3).2
    Reached ⟨document, []⟩ ∧ document.isHead 2 = false ∧ document.run 2 3 = [2, 3] ∧
      document.isConsistent = true ∧ ∃ prev cut,
      document.unlinkRun 2 3 = some (prev, cut) ∧
      Document.Strict.unlinkRun document 2 3 = some (some (prev, cut)) ∧
      Document.Strict.spliceRunAfter cut 5 2 3 = some (cut.spliceRunAfter 5 2 3) ∧
      document.MovesRun 2 3 5 (cut.spliceRunAfter 5 2 3) ∧
      (5 = prev → cut.spliceRunAfter 5 2 3 = document) := by
  intro one two document
  have first : Use ⟨.empty, []⟩ ⟨one, []⟩ :=
    @Use.insertWord _ 1 .unknown "one" ⟨by decide, by decide, by decide⟩
  have second : Use ⟨one, []⟩ ⟨two, []⟩ :=
    @Use.insertWord _ 2 .unknown "two" ⟨by decide, by decide, by decide⟩
  have third : Use ⟨two, []⟩ ⟨document, []⟩ :=
    @Use.insertList _ 3 ⟨by decide, by decide, by decide⟩
  have reached : Reached ⟨document, []⟩ := ((ReflTransGen.single first).tail second).tail third
  have run : document.run 2 3 = [2, 3] := by decide
  have notHead : document.isHead 2 = false := by decide
  have follows : 3 ∈ document.siblingsFrom 2 := by decide
  have placed : Placed ⟨document, []⟩ 2 := ⟨by decide, by decide, by decide⟩
  have placed' : Placed ⟨document, []⟩ 5 := ⟨by decide, by decide, by decide⟩
  have apart : Apart ⟨document, []⟩ (document.run 2 3) 5 := by
    rw [run]
    unfold Apart
    decide
  clear_value document
  exact ⟨reached, notHead, run, moving_is_exact reached rfl placed notHead follows placed' apart⟩

end Bench

end LiveStack
