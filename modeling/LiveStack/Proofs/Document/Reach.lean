import Mathlib.Data.List.Nodup
import Mathlib.Data.List.Perm.Subperm
import Mathlib.Logic.Relation
import Mathlib.Logic.Relator
import LiveStack.Proofs.Document.Links

/-!
# Ways through a document

A way goes from a node that nothing leads to, step by step. Where every node has at most one node
that leads to it, there is only one way to a node, and its nodes all differ. So no way is longer
than the document has slots, and none comes back to where it was.
-/

namespace LiveStack

/-- A way of `count` steps from `start`. -/
inductive Walk (step : NodeId → NodeId → Prop) (start : NodeId) : (count : Nat) → NodeId → Prop
  | here : Walk step start 0 start
  | next {count : Nat} {id other : NodeId} (walk : Walk step start count id)
      (forth : step id other) : Walk step start (count + 1) other

namespace Walk

open Relation

variable {step : NodeId → NodeId → Prop} {start start' id other : NodeId} {count count' : Nat}

theorem of_reaches (reaches : ReflTransGen step start id) : ∃ count, Walk step start count id := by
  induction reaches with
  | refl => exact ⟨0, .here⟩
  | tail _ forth ih =>
      obtain ⟨count, walk⟩ := ih
      exact ⟨count + 1, walk.next forth⟩

theorem reaches (walk : Walk step start count id) : ReflTransGen step start id := by
  induction walk with
  | here => exact .refl
  | next _ forth ih => exact ih.tail forth

theorem append (walk : Walk step start count id) (reaches : ReflTransGen step id other) :
    ∃ more, Walk step start (count + more) other := by
  induction reaches with
  | refl => exact ⟨0, walk⟩
  | tail _ forth ih =>
      obtain ⟨more, further⟩ := ih
      exact ⟨more + 1, further.next forth⟩

variable (single : Relator.LeftUnique step)

include single

/-- There is one way to a node. -/
theorem unique (free : ∀ a, ¬ step a start) (free' : ∀ a, ¬ step a start')
    (walk : Walk step start count id) (walk' : Walk step start' count' id) :
    start = start' ∧ count = count' := by
  induction walk generalizing count' with
  | here =>
      cases walk' with
      | here => exact ⟨rfl, rfl⟩
      | next _ forth => exact absurd forth (free _)
  | next _ forth ih =>
      cases walk' with
      | here => exact absurd forth (free' _)
      | next walk' forth' =>
          obtain rfl := single forth forth'
          obtain ⟨same, rfl⟩ := ih walk'
          exact ⟨same, rfl⟩

/-- No way comes back. -/
theorem irreflexive (free : ∀ a, ¬ step a start) (walk : Walk step start count id)
    (forth : step id other) : ¬ ReflTransGen step other id := by
  intro back
  obtain ⟨more, again⟩ := (walk.next forth).append back
  have := (unique single free free walk again).2
  omega

/-- Two nodes as far from the start as each other, and from which one node can be reached, are the
same node. -/
theorem eq_of_reaches (free : ∀ a, ¬ step a start) (walk : Walk step start count id)
    (walk' : Walk step start count other) {third : NodeId} (reaches : ReflTransGen step id third)
    (reaches' : ReflTransGen step other third) : id = other := by
  have level : ∀ {a b c}, Walk step start count a → Walk step start count b →
      ReflTransGen step a c → ¬ step c b := by
    intro a b c walk walk' reaches forth
    obtain ⟨more, further⟩ := walk.append reaches
    have := (unique single free free (further.next forth) walk').2
    omega
  induction reaches with
  | refl =>
      cases reaches' with
      | refl => rfl
      | tail reaches' forth => exact absurd forth (level walk' walk reaches')
  | tail reaches forth ih =>
      cases reaches' with
      | refl => exact absurd forth (level walk walk' reaches)
      | tail reaches' forth' =>
          obtain rfl := single forth forth'
          exact ih reaches'

/-- The nodes of a way, and how far from its start each of them is. -/
theorem exists_nodes (free : ∀ a, ¬ step a start) (walk : Walk step start count id) :
    ∃ nodes : List NodeId, nodes.length = count + 1 ∧ nodes.Nodup ∧
      ∀ node ∈ nodes, ∃ far ≤ count, Walk step start far node := by
  induction walk with
  | here => exact ⟨[start], rfl, List.nodup_singleton _, by simpa using Walk.here⟩
  | @next count id other walk forth ih =>
      obtain ⟨nodes, length, nodup, near⟩ := ih
      refine ⟨other :: nodes, by rw [List.length_cons, length], List.nodup_cons.2 ⟨?_, nodup⟩, ?_⟩
      · intro mem
        obtain ⟨far, le, again⟩ := near other mem
        have := (unique single free free (walk.next forth) again).2
        omega
      · intro node mem
        rcases List.mem_cons.1 mem with rfl | mem
        · exact ⟨count + 1, Nat.le_refl _, walk.next forth⟩
        · obtain ⟨far, le, again⟩ := near node mem
          exact ⟨far, Nat.le_succ_of_le le, again⟩

/-- No way is longer than there are numbers for its nodes. -/
theorem lt_of_bounded {size : Nat} (free : ∀ a, ¬ step a start)
    (bounded : ∀ count id, Walk step start count id → id < size)
    (walk : Walk step start count id) : count < size := by
  obtain ⟨nodes, length, nodup, near⟩ := exists_nodes single free walk
  have inside : nodes ⊆ List.range size := fun node mem => by
    obtain ⟨far, -, again⟩ := near node mem
    exact List.mem_range.2 (bounded _ _ again)
  have := (List.subperm_of_subset nodup inside).length_le
  rw [List.length_range] at this
  omega

end Walk

end LiveStack
