import Mathlib.Logic.Function.Basic
import LiveStack.Proofs.Document.Arrangement

/-!
# Changing an arrangement

Taking a run of siblings out of a list, and putting loose nodes into one, are the same thing: one
list gets new contents, and what is in it no more, or was in none before, is told from the loose
nodes. `Rearranged.result` says that a document that follows such a change is arranged again; the
operations are cases of it.
-/

namespace LiveStack

open Relation

/-- The contents of all lists, once `list` has got new ones. -/
def Contents.set (kids : Contents) (list : NodeId) (contents : List NodeId) : Contents :=
  Function.update kids list contents

namespace Contents

variable {kids : Contents} {contents : List NodeId} {list other start id : NodeId}

@[simp] theorem set_self : kids.set list contents list = contents := Function.update_self ..

theorem set_of_ne (differs : other ≠ list) : kids.set list contents other = kids other :=
  Function.update_of_ne differs ..

/-- Whoever could be reached can be reached still, or from what was taken out of the list. -/
theorem reaches_set (reaches : ReflTransGen kids.Holds start id) :
    ReflTransGen (kids.set list contents).Holds start id ∨
      ∃ other ∈ kids list, other ∉ contents ∧
        ReflTransGen (kids.set list contents).Holds other id := by
  induction reaches with
  | refl => exact .inl .refl
  | @tail middle last _ mem ih =>
      by_cases out : middle = list ∧ last ∉ contents
      · obtain ⟨rfl, out⟩ := out
        exact .inr ⟨last, mem, out, .refl⟩
      · have forth : (kids.set list contents).Holds middle last := by
          rw [Holds]
          by_cases same : middle = list
          · subst same
            rw [set_self]
            by_contra notMem
            exact out ⟨rfl, notMem⟩
          · rw [set_of_ne same]
            exact mem
        rcases ih with reaches | ⟨other, mem, out, reaches⟩
        · exact .inl (reaches.tail forth)
        · exact .inr ⟨other, mem, out, reaches.tail forth⟩

/-- Taking something out of a list leads nowhere new. -/
theorem reaches_of_set (inside : ∀ id ∈ contents, id ∈ kids list)
    (reaches : ReflTransGen (kids.set list contents).Holds start id) :
    ReflTransGen kids.Holds start id := by
  refine ReflTransGen.mono (fun other id held => ?_) _ _ reaches
  rw [Holds] at held
  rcases eq_or_ne other list with rfl | differs
  · rw [set_self] at held
    exact inside id held
  · rwa [set_of_ne differs] at held

/-- Putting something into a list cuts nothing off. -/
theorem reaches_set_of_subset (inside : ∀ id ∈ kids list, id ∈ contents)
    (reaches : ReflTransGen kids.Holds start id) :
    ReflTransGen (kids.set list contents).Holds start id := by
  refine ReflTransGen.mono (fun other id held => ?_) _ _ reaches
  rw [Holds] at held ⊢
  rcases eq_or_ne other list with rfl | differs
  · rw [set_self]
    exact inside id held
  · rwa [set_of_ne differs]

/-- What is not held by what is taken out stays where it is. -/
theorem reaches_set_of_above (inside : ∀ id ∈ contents, id ∈ kids list)
    (reaches : ReflTransGen kids.Holds start id)
    (above : ∀ other ∈ kids list, other ∉ contents → ¬ ReflTransGen kids.Holds other id) :
    ReflTransGen (kids.set list contents).Holds start id := by
  rcases reaches_set reaches with reaches | ⟨other, mem, out, reaches⟩
  · exact reaches
  · exact absurd (reaches_of_set inside reaches) (above other mem out)

end Contents

namespace Document

variable {document document' : Document} {kids : Contents} {loose loose' contents : List NodeId}
  {list id other : NodeId}

/-- What a change of `list` leaves alone: the nodes that were there, but for the list and for what
`run` holds, are what they were and hold what they held. -/
def Spares (document document' : Document) (kids kids' : Contents) (list : NodeId)
    (run : List NodeId) : Prop :=
  ∀ id, document.Live id → id ≠ list → (∀ start ∈ run, ¬ ReflTransGen kids.Holds start id) →
    document'.kind? id = document.kind? id ∧ kids' id = kids id

theorem Spares.live {kids' : Contents} {run : List NodeId}
    (spares : document.Spares document' kids kids' list run) (live : document.Live id)
    (differs : id ≠ list) (out : ∀ start ∈ run, ¬ ReflTransGen kids.Holds start id) :
    document'.Live id := by
  rwa [live_iff_kind?, (spares id live differs out).1, ← live_iff_kind?]

/-- A change, and then one that leaves alone what was there before, as far as the first one did. -/
theorem Spares.trans {middle : Document} {between kids' : Contents} {run : List NodeId}
    (spares : document.Spares middle kids between list [])
    (spares' : middle.Spares document' between kids' other run)
    (apart : ∀ id, document.Live id → id ≠ list →
      id ≠ other ∧ ∀ start ∈ run, ¬ ReflTransGen between.Holds start id) :
    document.Spares document' kids kids' list [] := by
  intro id live differs none
  obtain ⟨kind, contents⟩ := spares id live differs none
  obtain ⟨differs', out⟩ := apart id live differs
  obtain ⟨kind', contents'⟩ := spares' id (spares.live live differs none) differs' out
  exact ⟨kind'.trans kind, contents'.trans contents⟩

/-- The second document comes from the first by giving `list` new contents, out of what was in it
and of loose nodes. -/
structure Rearranged (document document' : Document) (kids : Contents) (loose loose' : List NodeId)
    (list : NodeId) (contents : List NodeId) : Prop where
  links : ∀ id, id ∉ kids list → id ∉ contents → document'.links? id = document.links? id
  chained : document'.Chained (some list) none contents none
  kinds : ∀ id ≠ list, document'.kind? id = document.kind? id
  ends : ∃ first last, document'.kind? list = some (.list first last) ∧
    contents.head? = some first ∧ contents.getLast? = some last
  head : contents.head? = (kids list).head?
  nodup : contents.Nodup
  origin : ∀ id ∈ contents, id ∈ kids list ∨ id ∈ loose
  /-- No list is put into itself. -/
  outside : ∀ id ∈ contents, id ∈ loose → ¬ ReflTransGen kids.Holds id list
  left : ∀ id, id ∈ loose' ↔ (id ∈ kids list ∨ id ∈ loose) ∧ id ∉ contents

namespace Rearranged

variable (change : document.Rearranged document' kids loose loose' list contents)
  (arranged : document.Arranged kids loose)

include change

theorem isList : document'.isList list = true := by
  obtain ⟨first, last, kind, -, -⟩ := change.ends
  exact isList_iff.2 ⟨first, last, kind⟩

theorem isList_of_ne (differs : other ≠ list) : document'.isList other = document.isList other := by
  rw [Document.isList, Document.isList, first?, first?, change.kinds other differs]

theorem reached_of_start {start : NodeId} (mem : start ∈ root :: loose) (out : start ∉ contents)
    (reaches : ReflTransGen kids.Holds start id) :
    ∃ start ∈ root :: loose', ReflTransGen (kids.set list contents).Holds start id := by
  rcases Contents.reaches_set reaches with reaches | ⟨other, mem', out', reaches⟩
  · refine ⟨start, ?_, reaches⟩
    rcases List.mem_cons.1 mem with rfl | mem
    · exact List.mem_cons_self
    · exact List.mem_cons_of_mem _ ((change.left start).2 ⟨.inr mem, out⟩)
  · exact ⟨other, List.mem_cons_of_mem _ ((change.left other).2 ⟨.inl mem', out'⟩), reaches⟩

include arranged

theorem isList_before : document.isList list = true := by
  obtain ⟨first, last, -, first', -⟩ := change.ends
  have mem : first ∈ kids list := List.mem_of_mem_head? (change.head ▸ first')
  exact arranged.isList_of_mem mem

theorem ne_of_mem (mem : id ∈ contents) : id ≠ list := by
  rintro rfl
  rcases change.origin id mem with mem' | mem'
  · exact arranged.ne_of_mem mem' rfl
  · exact change.outside id mem mem' .refl

theorem ne_root_of_mem (mem : id ∈ contents) : id ≠ root := by
  rcases change.origin id mem with mem' | mem'
  · exact arranged.ne_root mem'
  · exact (arranged.loosened id mem').2.2

/-- What is in another list is not touched. -/
theorem apart (differs : other ≠ list) (mem : id ∈ kids other) :
    id ∉ kids list ∧ id ∉ contents := by
  refine ⟨fun mem' => differs (arranged.single mem mem'), fun mem' => ?_⟩
  rcases change.origin id mem' with mem'' | mem''
  · exact differs (arranged.single mem mem'')
  · exact arranged.notMem_loose mem mem''

theorem head_iff (mem : id ∈ contents) :
    document'.kind? id = some .head ↔ contents.head? = some id := by
  rw [change.kinds id (change.ne_of_mem arranged mem), change.head]
  rcases change.origin id mem with mem' | mem'
  · exact arranged.heads mem'
  · refine iff_of_false (arranged.loosened id mem').2.1 fun isFirst => ?_
    exact arranged.notMem_loose (List.mem_of_mem_head? isFirst) mem'

theorem head_iff_of_ne (differs : other ≠ list) (mem : id ∈ kids other) :
    document'.kind? id = some .head ↔ (kids other).head? = some id := by
  rw [← arranged.heads mem]
  by_cases same : id = list
  · subst same
    obtain ⟨_, _, kind⟩ := isList_iff.1 (change.isList_before arranged)
    obtain ⟨_, _, kind', -, -⟩ := change.ends
    simp [kind, kind']
  · rw [change.kinds id same]

theorem live_iff : document'.Live id ↔ document.Live id := by
  by_cases same : id = list
  · subst same
    exact iff_of_true (live_of_isList change.isList)
      (live_of_isList (change.isList_before arranged))
  · rw [live_iff_kind?, live_iff_kind?, change.kinds id same]

theorem loosened (mem : id ∈ loose') :
    document'.Live id ∧ document'.kind? id ≠ some .head ∧ id ≠ root := by
  obtain ⟨origin, out⟩ := (change.left id).1 mem
  rw [change.live_iff arranged]
  rcases origin with mem' | mem'
  · refine ⟨arranged.live_of_mem mem', ?_, arranged.ne_root mem'⟩
    rw [change.kinds id (arranged.ne_of_mem mem'), Ne, arranged.heads mem', ← change.head]
    exact fun isFirst => out (List.mem_of_mem_head? isFirst)
  · obtain ⟨live, notHead, notRoot⟩ := arranged.loosened id mem'
    refine ⟨live, ?_, notRoot⟩
    by_cases same : id = list
    · subst same
      obtain ⟨_, _, kind, -, -⟩ := change.ends
      simp [kind]
    · rwa [change.kinds id same]

theorem free {start : NodeId} (mem : start ∈ root :: loose') :
    ¬ (kids.set list contents).Holds other start := by
  intro held
  rw [Contents.Holds] at held
  by_cases same : other = list
  · subst same
    rw [Contents.set_self] at held
    rcases List.mem_cons.1 mem with rfl | mem
    · exact change.ne_root_of_mem arranged held rfl
    · exact ((change.left start).1 mem).2 held
  · rw [Contents.set_of_ne same] at held
    rcases List.mem_cons.1 mem with rfl | mem
    · exact arranged.ne_root held rfl
    · rcases ((change.left start).1 mem).1 with mem' | mem'
      · exact same (arranged.single held mem')
      · exact arranged.notMem_loose held mem'

/-- The list itself hangs on nothing that was put into it. -/
theorem list_reached :
    ∃ start ∈ root :: loose', ReflTransGen (kids.set list contents).Holds start list := by
  obtain ⟨start, mem, reaches⟩ :=
    arranged.reached (live_of_isList (change.isList_before arranged))
  refine change.reached_of_start mem (fun mem' => ?_) reaches
  rcases List.mem_cons.1 mem with rfl | mem
  · exact change.ne_root_of_mem arranged mem' rfl
  · exact change.outside start mem' mem reaches

theorem reached (live : document'.Live id) :
    ∃ start ∈ root :: loose', ReflTransGen (kids.set list contents).Holds start id := by
  obtain ⟨start, mem, reaches⟩ := arranged.reached ((change.live_iff arranged).1 live)
  by_cases pasted : start ∈ contents
  · obtain ⟨start', mem', reaches'⟩ := change.list_reached arranged
    have forth : (kids.set list contents).Holds list start := by
      rw [Contents.Holds, Contents.set_self]
      exact pasted
    rcases Contents.reaches_set reaches with reaches | ⟨other, mem'', out, reaches⟩
    · exact ⟨start', mem', (reaches'.tail forth).trans reaches⟩
    · exact ⟨other, List.mem_cons_of_mem _ ((change.left other).2 ⟨.inl mem'', out⟩), reaches⟩
  · exact change.reached_of_start mem pasted reaches

/-- After a list was given new contents, the links say the new contents. -/
theorem result : document'.Arranged (kids.set list contents) loose' := by
  -- One list got new contents, and every other has what it had.
  constructor
  case loosened => exact fun id mem => change.loosened arranged mem
  case free => exact fun start mem other => change.free arranged mem
  case reached => exact change.reached arranged
  case rooted =>
    rcases eq_or_ne root list with same | differs
    · exact same ▸ change.isList
    · exact (change.isList_of_ne differs).trans arranged.rooted
  case unlinked =>
    rw [change.links root (fun mem => arranged.ne_root mem rfl)
      (fun mem => change.ne_root_of_mem arranged mem rfl)]
    exact arranged.unlinked
  case ends =>
    intro other first last kind
    rcases eq_or_ne other list with rfl | differs
    · obtain ⟨first', last', kind', starts, stops⟩ := change.ends
      rw [kind] at kind'
      cases kind'
      rw [Contents.set_self]
      exact ⟨starts, stops⟩
    · rw [Contents.set_of_ne differs]
      exact arranged.ends (change.kinds other differs ▸ kind)
  case plain =>
    intro other notList
    rcases eq_or_ne other list with rfl | differs
    · rw [change.isList] at notList
      cases notList
    · rw [Contents.set_of_ne differs]
      exact arranged.plain (change.isList_of_ne differs ▸ notList)
  case chained =>
    intro other
    rcases eq_or_ne other list with rfl | differs
    · rw [Contents.set_self]
      exact change.chained
    · rw [Contents.set_of_ne differs]
      refine (arranged.chained other).congr fun id mem => ?_
      obtain ⟨out, out'⟩ := change.apart arranged differs mem
      exact change.links id out out'
  case nodup =>
    intro other
    rcases eq_or_ne other list with rfl | differs
    · rw [Contents.set_self]
      exact change.nodup
    · rw [Contents.set_of_ne differs]
      exact arranged.nodup other
  case heads =>
    intro other id
    rcases eq_or_ne other list with rfl | differs
    · rw [Contents.set_self]
      exact change.head_iff arranged
    · rw [Contents.set_of_ne differs]
      exact change.head_iff_of_ne arranged differs

end Rearranged

end Document

end LiveStack
