import LiveStack.Proofs.Document.Removal

/-!
# Putting a run into a list, and taking a list away from around its children

Both take something out and put it, or what was in it, back elsewhere. In between nodes are loose,
and what has to be shown each time is that the place where they go is not in themselves: it is held
by the root.
-/

namespace LiveStack

open Relation

namespace Document

variable {document cut : Document} {kids : Contents} {loose front run back rest : List NodeId}
  {list outer id head prev first last : NodeId}

namespace Arranged

/-! ## Putting a run into a list -/

/-- Taking a run out of a list does not cut the list off. -/
theorem root_reaches_cut (arranged : document.Arranged kids [])
    (split : kids list = front ++ run ++ back) (isList : document.isList list = true) :
    ReflTransGen (kids.set list (front ++ back)).Holds root list := by
  have inside : ∀ id ∈ front ++ back, id ∈ kids list := fun _ => mem_of_split split
  exact Contents.reaches_set_of_above inside (arranged.reached_from_root (live_of_isList isList))
    fun other mem _ => arranged.acyclic mem

/-- A run goes into a new list in the place where it was, and all else is left alone. -/
theorem quoteRun (arranged : document.Arranged kids run)
    (parted : Parted front run back prev first last) (split : kids list = front ++ back)
    (chained : document.Chained (some list) none run none)
    (reaches : ReflTransGen kids.Holds root list) :
    ∃ inserted head kids', document.insertListAfter prev = (document.slots.size, inserted) ∧
      inserted.Arranged kids' run ∧ kids' document.slots.size = [head] ∧
      kids' list = front ++ [document.slots.size] ++ back ∧
      inserted.Chained (some list) none run none ∧
      (inserted.spliceRunAfter head first last).Arranged
        (kids'.set document.slots.size ([head] ++ run ++ [])) [] ∧
      document.Spares (inserted.spliceRunAfter head first last) kids
        (kids'.set document.slots.size ([head] ++ run ++ [])) list [] ∧
      ¬ document.Live head := by
  obtain ⟨kids', arranged', inner, around, spares, onward⟩ :=
    arranged.insertListAfter split parted.before
  have held : document.slots.size ∈ kids' list := by simp [around]
  have chained' : (document.insertListAfter prev).2.Chained (some list) none run none :=
    chained.congr fun id mem => grown_pushList.links?_linkAfter arranged
      (show prev ∈ kids list by simp [split, parted.prev_mem]) (chained.live mem)
      fun mem' => arranged.notMem_loose mem' mem
  have inside : Parted [document.slots.size + 1] run [] (document.slots.size + 1) first last := by
    refine ⟨?_, rfl, parted.starts, parted.ends⟩
    rw [List.append_nil, List.singleton_append, List.nodup_cons]
    refine ⟨fun mem => ?_, parted.nodup_run⟩
    exact Nat.not_succ_lt_self (lt_size_of_live (chained.live mem))
  -- The root holds the new list, so the run, which is loose, does not.
  have outside : ∀ id ∈ run, ¬ ReflTransGen kids'.Holds id document.slots.size := fun id mem =>
    arranged'.apart_of_root mem (.tail (onward reaches) held)
  have loose := arranged'
  rw [← run.append_nil] at loose
  refine ⟨_, document.slots.size + 1, kids', rfl, arranged', inner, around, chained',
    loose.spliceRunAfter inside inner chained' outside nofun, ?_,
    fun live => Nat.not_succ_lt_self (lt_size_of_live live)⟩
  intro id live differs _
  have old : id ≠ document.slots.size := Nat.ne_of_lt (lt_size_of_live live)
  obtain ⟨kind, contents⟩ := spares id live differs nofun
  show ((document.insertListAfter prev).2.spliceRunAfter _ first last).kind? id = _ ∧ _
  rw [loose.spliceRunAfter_eq inside inner chained', kind?_pasteRun,
    if_neg fun both => old both.2.symm, kind, Contents.set_of_ne old, contents]
  exact ⟨rfl, rfl⟩

/-! ## Taking a list away -/

/-- Children can be put elsewhere without being taken out of their list first, if that is freed
afterwards. -/
theorem freeShell_pasteRun {next : Option NodeId} (shell : document.first? list = some head) :
    (document.pasteRun (some outer) prev rest first last next).freeShell list =
      ((document.cutRun (some list) head first last none).pasteRun (some outer) prev rest first last
        next).freeShell list := by
  rw [Document.freeShell, Document.freeShell, first?_of_endingWith kind?_pasteRun,
    first?_of_endingWith kind?_pasteRun, first?_of_endingWith kind?_cutRun, shell]
  refine ext_of_get? (by simp) fun id => ?_
  simp only [get?_erase]
  -- The two differ in the list and in its head only, and those are gone in the end.
  by_cases isList : id = list
  · rw [if_pos isList, if_pos isList]
  by_cases isHead : id = head
  · rw [if_neg isList, if_neg isList, if_pos isHead, if_pos isHead]
  rw [if_neg isList, if_neg isList, if_neg isHead, if_neg isHead]
  refine get?_eq_of_links? ?_ ?_
  · rw [links?_pasteRun, links?_pasteRun, links?_cutRun]
    cases document.links? id with
    | none => rfl
    | some links =>
        simp only [Option.map_some, if_neg isHead, reduceCtorEq, if_false]
        split_ifs <;> rfl
  · have same :
        (document.cutRun (some list) head first last none).kind? id = document.kind? id := by
      rw [kind?_cutRun, if_neg fun both => isList both.2.symm]
    rw [kind?_pasteRun, kind?_pasteRun, same]

/-- The children of a list can be cut out of it like any run that is not its head. -/
theorem rearranged_cutChildren (arranged : document.Arranged kids loose)
    (split : kids list = head :: rest) (starts : rest.head? = some first)
    (ends : rest.getLast? = some last) :
    document.Rearranged (document.cutRun (some list) head first last none) kids loose
        (rest ++ loose) list [head] ∧
      (document.cutRun (some list) head first last none).Chained (some list) none rest none := by
  have nodup := arranged.nodup list
  have chained := arranged.chained list
  rw [split] at nodup chained
  have parted : Parted [head] rest [] head first last :=
    ⟨by simpa using nodup, rfl, starts, ends⟩
  constructor
  · simpa using arranged.rearranged_cutRun parted (by simpa using split)
  · exact (chained_cutRun parted (show document.Chained (some list) none
      ([head] ++ rest ++ []) none by simpa using chained)).2

/-- So a list that is taken away once its children were put elsewhere might as well have lost them
before. -/
theorem freeShell_spliceRunAfter (arranged : document.Arranged kids loose)
    (parted : Parted front rest back prev first last) (split : kids outer = front ++ back)
    (split' : kids list = head :: rest) (differs : outer ≠ list) :
    (document.spliceRunAfter prev first last).freeShell list =
      ((document.cutRun (some list) head first last none).spliceRunAfter prev first
        last).freeShell list := by
  obtain ⟨cutting, chained⟩ := arranged.rearranged_cutChildren split' parted.starts parted.ends
  have chained' := arranged.chained list
  rw [split'] at chained'
  rw [arranged.spliceRunAfter_eq parted split chained'.2,
    (cutting.result arranged).spliceRunAfter_eq parted
      (by rw [Contents.set_of_ne differs, split]) chained]
  exact freeShell_pasteRun (arranged.first?_of_cons split')

/-- A loose list makes way for its children, which go to where it does not hold, and all else is
left alone. -/
theorem unquoteList (arranged : document.Arranged kids (list :: loose)) (single : list ∉ loose)
    (parted : Parted front [list] back prev list list) (split : kids outer = front ++ back)
    (split' : kids list = head :: rest) (starts : rest.head? = some first)
    (ends : rest.getLast? = some last) (outside : ¬ ReflTransGen kids.Holds list outer) :
    ∃ kids', ((document.spliceRunAfter prev first last).freeShell list).Arranged kids' loose ∧
      kids' outer = front ++ rest ++ back ∧
      (∀ id, id ≠ outer → id ≠ list → id ≠ head →
        ((document.spliceRunAfter prev first last).freeShell list).kind? id = document.kind? id ∧
          kids' id = kids id) ∧
      ∀ id ∈ loose, ((document.spliceRunAfter prev first last).freeShell list).links? id =
        document.links? id := by
  have held : ∀ {id}, id ∈ rest → id ∈ kids list := fun mem => by simp [split', mem]
  have headHeld : head ∈ kids list := by simp [split']
  have differs : outer ≠ list := by
    rintro rfl
    exact outside .refl
  have nodup := arranged.nodup list
  rw [split', List.nodup_cons] at nodup
  -- Were the children taken out first, they could be put back like any run.
  obtain ⟨cutting, chained⟩ := arranged.rearranged_cutChildren split' starts ends
  have taken := cutting.result arranged
  have split₁ : (kids.set list [head]) outer = front ++ back := by
    rw [Contents.set_of_ne differs, split]
  have beside : Parted front rest back prev first last :=
    taken.parted_of_loose (fun id mem => by simp [mem]) nodup.2 starts ends split₁ parted.before
  have outside₁ : ∀ id ∈ rest, ¬ ReflTransGen (kids.set list [head]).Holds id outer :=
    fun id mem reaches =>
      outside (.head (held mem) (Contents.reaches_of_set (by simp [split']) reaches))
  have pasting := taken.rearranged_pasteRun beside split₁ chained outside₁
    (fun id mem mem' => arranged.notMem_loose (held mem) mem')
  have placed := pasting.result taken
  rw [← taken.spliceRunAfter_eq beside split₁ chained] at pasting placed
  -- Then the list holds no more than its head, and both are removed.
  have shell : ((kids.set list [head]).set outer (front ++ rest ++ back)) list = [head] := by
    rw [Contents.set_of_ne differs.symm, Contents.set_self]
  have apart : ∀ id ∈ loose, id ∉ [list] := fun id mem mem' =>
    single (List.mem_singleton.1 mem' ▸ mem)
  obtain ⟨kids', arranged', kept⟩ :=
    (placed.freeShell_freed shell).exists_left placed (by simp) (mem_iff_of_apart apart)
  simp only [List.mem_singleton, forall_eq, placed.reaches_shell shell, not_or] at kept
  rw [arranged.freeShell_spliceRunAfter beside split split' differs]
  refine ⟨kids', arranged', ?_, fun id notOuter notList notHead => ?_, fun id mem => ?_⟩
  · have notHead : outer ≠ head := by
      rintro rfl
      exact outside (.single headHeld)
    exact (kept outer ⟨notHead, differs⟩).2.trans Contents.set_self
  · obtain ⟨node, contents⟩ := kept id ⟨notHead, notList⟩
    rw [kind?, node, ← kind?, contents, pasting.kinds id notOuter, cutting.kinds id notList,
      Contents.set_of_ne notOuter, Contents.set_of_ne notList]
    exact ⟨rfl, rfl⟩
  · have nowhere := arranged.free id (by simp [mem])
    have notHead : id ≠ head := fun same => nowhere list (same ▸ headHeld)
    have notList : id ≠ list := fun same => single (same ▸ mem)
    have outHead : id ∉ [head] := by simpa using notHead
    have outOuter : id ∉ front ++ rest ++ back :=
      notMem_of_split split (nowhere outer) fun mem => nowhere list (held mem)
    rw [Document.links?, (kept id ⟨notHead, notList⟩).1, ← Document.links?,
      pasting.links id (by rw [Contents.set_of_ne differs]; exact nowhere outer) outOuter,
      cutting.links id (nowhere list) outHead]

end Arranged

end Document

end LiveStack
