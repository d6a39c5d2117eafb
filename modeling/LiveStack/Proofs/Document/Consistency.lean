import Mathlib.Data.List.Induction
import LiveStack.Proofs.Document.Arrangement

/-!
# An arranged document passes its check

Following the links down and along, from the root to its first node and on, comes to every node
that has not been removed, and to each in one way. So the check never runs out of fuel, and it finds
nothing wrong.
-/

namespace LiveStack

open Relation

namespace Document

/-- A link down, to the first node of a list, or along, to the next sibling. -/
def Points (document : Document) (id other : NodeId) : Prop :=
  document.first? id = some other ∨ document.next? id = some other

variable {document : Document} {kids : Contents} {list id other : NodeId}

namespace Arranged

variable (arranged : document.Arranged kids [])

include arranged

theorem exists_list (live : document.Live id) (differs : id ≠ root) : ∃ list, id ∈ kids list :=
  arranged.exists_list_of_placed live differs List.not_mem_nil

theorem exists_next (next : document.next? id = some other) :
    ∃ list front back, kids list = front ++ id :: other :: back := by
  rw [next?_eq] at next
  cases links : document.links? id with
  | none => simp [links] at next
  | some here =>
      have differs : id ≠ root := by
        rintro rfl
        rw [arranged.unlinked] at next
        cases next
      obtain ⟨list, mem⟩ := arranged.exists_list (live_of_links? links) differs
      obtain ⟨front, back, split⟩ := List.append_of_mem mem
      rw [arranged.links? split] at next
      obtain ⟨back, rfl⟩ := List.head?_eq_some_iff.1 (show back.head? = some other from next)
      exact ⟨list, front, back, split⟩

theorem exists_first (first : document.first? id = some other) :
    ∃ rest, kids id = other :: rest ∧ document.kind? other = some .head := by
  have known : document.isList id = true := by rw [Document.isList, first]; rfl
  obtain ⟨head, rest, split, kind, first'⟩ := arranged.exists_head known
  obtain rfl : head = other := Option.some.inj (first'.symm.trans first)
  exact ⟨rest, split, kind⟩

theorem exists_mem_of_points (points : document.Points id other) : ∃ list, other ∈ kids list := by
  rcases points with first | next
  · obtain ⟨rest, split, -⟩ := arranged.exists_first first
    exact ⟨id, by simp [split]⟩
  · obtain ⟨list, front, back, split⟩ := arranged.exists_next next
    exact ⟨list, by simp [split]⟩

/-- The first node of a list comes after no other. -/
theorem first_ne_next (first : document.first? list = some other) :
    document.next? id ≠ some other := by
  intro next
  obtain ⟨rest, -, kind⟩ := arranged.exists_first first
  obtain ⟨list', front, back, split⟩ := arranged.exists_next next
  have behind : kids list' = (front ++ [id]) ++ other :: back := by simp [split]
  exact arranged.kind?_ne_head behind (by simp) kind

/-- One link leads to a node. -/
theorem points_single : Relator.LeftUnique document.Points := by
  intro a b c points points'
  rcases points with first | next <;> rcases points' with first' | next'
  · obtain ⟨rest, split, -⟩ := arranged.exists_first first
    obtain ⟨rest', split', -⟩ := arranged.exists_first first'
    exact arranged.single (show c ∈ kids a by simp [split]) (show c ∈ kids b by simp [split'])
  · exact absurd next' (arranged.first_ne_next first)
  · exact absurd next (arranged.first_ne_next first')
  · obtain ⟨list, front, back, split⟩ := arranged.exists_next next
    obtain ⟨list', front', back', split'⟩ := arranged.exists_next next'
    have before := arranged.prev? (show kids list = (front ++ [a]) ++ c :: back by simp [split])
    have before' :=
      arranged.prev? (show kids list' = (front' ++ [b]) ++ c :: back' by simp [split'])
    rw [before, List.getLast?_concat, List.getLast?_concat] at before'
    exact Option.some.inj before'

theorem points_free (id : NodeId) : ¬ document.Points id root := by
  intro points
  obtain ⟨list, mem⟩ := arranged.exists_mem_of_points points
  exact arranged.ne_root mem rfl

theorem live_of_points (reaches : ReflTransGen document.Points root id) : document.Live id := by
  cases reaches with
  | refl => exact live_of_isList arranged.rooted
  | tail _ points =>
      obtain ⟨list, mem⟩ := arranged.exists_mem_of_points points
      exact arranged.live_of_mem mem

theorem points_lt {count : Nat} (walk : Walk document.Points root count id) :
    count < document.slots.size :=
  walk.lt_of_bounded arranged.points_single arranged.points_free fun _ _ walk =>
    lt_size_of_live (arranged.live_of_points walk.reaches)

/-- From a list, its links lead to everything in it. -/
theorem points_of_mem {front back : List NodeId} (split : kids list = front ++ id :: back) :
    ReflTransGen document.Points list id := by
  induction front using List.reverseRecOn generalizing id back with
  | nil =>
      have known := arranged.isList_of_mem (show id ∈ kids list by simp [split])
      refine .single (.inl ?_)
      rw [arranged.first?_of_isList known, split]
      rfl
  | append_singleton front prev ih =>
      have split' : kids list = front ++ prev :: id :: back := by simp [split]
      refine (ih split').tail (.inr ?_)
      rw [arranged.next? split']
      rfl

/-- The links lead from the root to every node that has not been removed, and to no other. -/
theorem live_iff_points : document.Live id ↔ ReflTransGen document.Points root id := by
  refine ⟨fun live => ?_, arranged.live_of_points⟩
  obtain ⟨start, mem, reaches⟩ := arranged.reached live
  rw [List.mem_singleton.1 mem] at reaches
  clear live
  induction reaches with
  | refl => exact .refl
  | tail _ held ih =>
      obtain ⟨front, back, split⟩ := List.append_of_mem held
      exact ih.trans (arranged.points_of_mem split)

/-! ## The check -/

theorem first_passes (first : document.first? list = some id) :
    document.isHead id = true ∧ document.prev? id = none ∧ document.parent? id = some list := by
  obtain ⟨rest, split, kind⟩ := arranged.exists_first first
  refine ⟨by rw [isHead, kind]; rfl, ?_, arranged.parent? (by simp [split])⟩
  exact arranged.prev? (show kids list = [] ++ id :: rest from split)

theorem next_passes {front back : List NodeId} (split : kids list = front ++ id :: other :: back) :
    document.prev? other = some id ∧ document.isHead other = false := by
  have behind : kids list = (front ++ [id]) ++ other :: back := by simp [split]
  refine ⟨by rw [arranged.prev? behind, List.getLast?_concat], ?_⟩
  rw [isHead]
  exact decide_eq_false (arranged.kind?_ne_head behind (by simp))

theorem checkFrom?_passes {fuel count : Nat} (walk : Walk document.Points root count id)
    (enough : document.slots.size ≤ count + fuel) (mem : id ∈ kids list) :
    document.checkFrom? fuel list id = some true := by
  -- Each round follows one more link away from the root, and no walk is as long as the slots are
  -- many.
  induction fuel generalizing count id list with
  | zero => exact absurd (arranged.points_lt walk) (Nat.not_lt.2 enough)
  | succ fuel ih =>
      obtain ⟨front, back, split⟩ := List.append_of_mem mem
      have next := arranged.next? split
      have inside : ∀ {first last}, document.kind? id = some (.list first last) →
          document.checkFrom? fuel id first = some true ∧ document.isHead first = true ∧
            document.prev? first = none ∧ document.parent? first = some id := by
        intro first last kind
        have first' : document.first? id = some first := by rw [first?, kind]
        obtain ⟨rest, split', -⟩ := arranged.exists_first first'
        exact ⟨ih (walk.next (.inl first')) (by omega) (by simp [split']),
          arranged.first_passes first'⟩
      have rest : ∀ {other}, document.next? id = some other →
          document.checkFrom? fuel list other = some true ∧ document.prev? other = some id ∧
            document.isHead other = false := by
        intro other next'
        obtain ⟨back, rfl⟩ := List.head?_eq_some_iff.1 (next.symm.trans next')
        exact ⟨ih (walk.next (.inr next')) (by omega) (by simp [split]),
          arranged.next_passes split⟩
      have stop : document.next? id = none → document.last? list = some id := by
        intro last
        rw [last] at next
        rw [arranged.last?_of_isList (arranged.isList_of_mem mem), split,
          List.head?_eq_none_iff.1 next.symm, List.getLast?_concat]
      rw [checkFrom?, if_neg (by rw [arranged.parent? mem]; simp)]
      cases kind : document.kind? id with
      | none =>
          obtain ⟨_, kind'⟩ := live_iff_kind?.1 (arranged.live_of_mem mem)
          cases kind.symm.trans kind'
      | some here =>
          cases next' : document.next? id with
          | none =>
              cases here with
              | list first last =>
                  obtain ⟨deep, isHead, noPrev, parent⟩ := inside kind
                  simp [isHead, noPrev, parent, deep, stop next']
              | _ => simp [stop next']
          | some other =>
              obtain ⟨along, before, notHead⟩ := rest next'
              cases here with
              | list first last =>
                  obtain ⟨deep, isHead, noPrev, parent⟩ := inside kind
                  simp [isHead, noPrev, parent, deep, along, before, notHead]
              | _ => simp [along, before, notHead]

/-- The links agree. -/
theorem isConsistent : document.isConsistent = true := by
  obtain ⟨head, rest, split, -, first⟩ := arranged.exists_head arranged.rooted
  obtain ⟨isHead, noPrev, parent⟩ := arranged.first_passes first
  have passes : document.checkFrom? document.chainLimit root head = some true :=
    arranged.checkFrom?_passes (Walk.here.next (.inl first)) (by rw [chainLimit]; omega)
      (by simp [split])
  rw [Document.isConsistent, check?, first]
  simp only [isHead, noPrev, parent, and_self, if_true, passes, decide_true]

end Arranged

end Document

end LiveStack
