import Mathlib.Data.List.Infix
import LiveStack.Context

/-!
# Items in contexts

A store of items in contexts is a flat list with a stack of lengths. Marking notes the length,
releasing truncates the list to the length noted last, and an item that is added gets the length as
its index. The contexts themselves can't be seen from outside: however many of them are empty, and
however often an index has been given out before, an index finds the item that the flat list has
there.
-/

namespace LiveStack

variable {α : Type}

/-! ## What is done to contexts -/

/-- One thing done to contexts of items. -/
inductive ContextStep (α : Type) where
  | mark
  | release
  | insert (item : α)

/-- Steps that release every context that they mark, and no other. -/
inductive ContextStep.Nested : List (ContextStep α) → Prop
  | nil : Nested []
  | insert (item : α) {rest : List (ContextStep α)} : Nested rest → Nested (.insert item :: rest)
  | context {inner rest : List (ContextStep α)} : Nested inner → Nested rest →
      Nested (.mark :: inner ++ .release :: rest)

/-- The store after a step. The release of the root is refused, and changes nothing. -/
def Layers.step (layers : Layers α) : ContextStep α → Layers α
  | .mark => layers.mark
  | .release => layers.release.toOption.getD layers
  | .insert item => (layers.insert item).2

/-- The store after some steps. -/
def Layers.run (layers : Layers α) (steps : List (ContextStep α)) : Layers α :=
  steps.foldl Layers.step layers

/-- A list without contexts, and its lengths at the marks that are open, the newest first. -/
structure FlatList (α : Type) where
  items : List α
  marks : List Nat

namespace FlatList

/-- No items, and no marks. -/
def empty : FlatList α := ⟨[], []⟩

/-- Forget the newest mark, and what has been added since. -/
def release (flat : FlatList α) : FlatList α :=
  match flat.marks with
  | [] => flat
  | length :: marks => ⟨flat.items.take length, marks⟩

/-- The list after a step. -/
def step (flat : FlatList α) : ContextStep α → FlatList α
  | .mark => ⟨flat.items, flat.items.length :: flat.marks⟩
  | .release => flat.release
  | .insert item => ⟨flat.items ++ [item], flat.marks⟩

/-- The list after some steps. -/
def run (flat : FlatList α) (steps : List (ContextStep α)) : FlatList α :=
  steps.foldl step flat

end FlatList

/-! ## The layout of contexts -/

/-- Contexts, the newest first, that lie one behind the other in a flat list. -/
inductive Layer.Layout : List (Layer α) → FlatList α → Prop
  | root (items : Array α) : Layout [⟨0, items⟩] ⟨items.toList, []⟩
  | above {older : List (Layer α)} {held : List α} {marks : List Nat}
      (below : Layout older ⟨held, marks⟩) (items : Array α) :
      Layout (⟨held.length, items⟩ :: older) ⟨held ++ items.toList, held.length :: marks⟩

/-- The contexts of a store lie one behind the other in a flat list. -/
def Layers.Shows (layers : Layers α) (flat : FlatList α) : Prop :=
  Layer.Layout (layers.newest :: layers.older) flat

theorem Layer.Layout.get?_eq {layers : List (Layer α)} {flat : FlatList α}
    (layout : Layout layers flat) (index : Nat) :
    (layers.find? (·.start ≤ index)).bind (fun layer => layer.items[index - layer.start]?) =
      flat.items[index]? := by
  induction layout with
  | root items => simp
  | @above older held marks below items ih =>
      by_cases inside : held.length ≤ index
      · rw [List.find?_cons_of_pos (by simpa using inside), List.getElem?_append_right inside]
        exact (Array.getElem?_toList ..).symm
      · rw [List.find?_cons_of_neg (by simpa using inside), ih,
          List.getElem?_append_left (Nat.lt_of_not_le inside)]

/-- There is one context more than there are marks. -/
theorem Layer.Layout.length_eq {layers : List (Layer α)} {flat : FlatList α}
    (layout : Layout layers flat) : layers.length = flat.marks.length + 1 := by
  induction layout with
  | root items => rfl
  | above below items ih => exact congrArg (· + 1) ih

namespace Layers.Shows

variable {layers : Layers α} {flat : FlatList α}

theorem empty : (Layers.empty : Layers α).Shows .empty := .root #[]

theorem size (shows : layers.Shows flat) : layers.size = flat.items.length := by
  obtain ⟨newest, older⟩ := layers
  cases shows with
  | root items => simp [Layers.size]
  | above below items => simp [Layers.size]

theorem get? (shows : layers.Shows flat) (index : Nat) : layers.get? index = flat.items[index]? :=
  shows.get?_eq index

theorem depth (shows : layers.Shows flat) : layers.depth = flat.marks.length + 1 :=
  shows.length_eq

/-- Only the root is not released. -/
theorem release_cases (shows : layers.Shows flat) :
    flat.marks = [] ∧ layers.release = .error .layers ∧ layers.step .release = layers ∨
      flat.marks ≠ [] ∧ layers.release = .ok (layers.step .release) := by
  obtain ⟨newest, older⟩ := layers
  cases shows with
  | root items => exact .inl ⟨rfl, rfl, rfl⟩
  | above below items => cases below <;> exact .inr ⟨List.cons_ne_nil _ _, rfl⟩

theorem mark (shows : layers.Shows flat) : layers.mark.Shows (flat.step .mark) := by
  have above := Layer.Layout.above shows #[]
  rw [List.append_nil, ← shows.size] at above
  rw [FlatList.step, ← shows.size]
  exact above

theorem insert (shows : layers.Shows flat) (item : α) :
    (layers.insert item).2.Shows (flat.step (.insert item)) := by
  obtain ⟨⟨start, held⟩, older⟩ := layers
  show Layer.Layout (⟨start, held.push item⟩ :: older) ⟨flat.items ++ [item], flat.marks⟩
  cases shows with
  | root => simpa using Layer.Layout.root (held.push item)
  | above below => simpa using Layer.Layout.above below (held.push item)

theorem release (shows : layers.Shows flat) :
    (layers.step .release).Shows (flat.step .release) := by
  obtain ⟨newest, older⟩ := layers
  cases shows with
  | root items => exact .root items
  | @above _ held marks below items =>
      -- What lies below the mark is the flat list up to the length that was noted.
      have truncated : (held ++ items.toList).take held.length = held := List.take_left ..
      show Layers.Shows (Layers.step _ .release)
        ⟨(held ++ items.toList).take held.length, marks⟩
      rw [truncated]
      cases below with
      | root items => exact .root items
      | above below items => exact .above below items

/-- What one step keeps. -/
theorem step (shows : layers.Shows flat) (step : ContextStep α) :
    (layers.step step).Shows (flat.step step) := by
  cases step with
  | mark => exact shows.mark
  | release => exact shows.release
  | insert item => exact shows.insert item

/-- What a run keeps. -/
theorem run (shows : layers.Shows flat) (steps : List (ContextStep α)) :
    (layers.run steps).Shows (flat.run steps) := by
  induction steps generalizing layers flat with
  | nil => exact shows
  | cons step rest ih => exact ih (shows.step step)

end Layers.Shows

/-! ## Contexts that are closed again -/

namespace FlatList

/-- Nested steps only add items. -/
theorem exists_run_nested {steps : List (ContextStep α)} (nested : ContextStep.Nested steps)
    (flat : FlatList α) : ∃ added, flat.run steps = ⟨flat.items ++ added, flat.marks⟩ := by
  induction nested generalizing flat with
  | nil => exact ⟨[], by simp [run]⟩
  | insert item _ ih =>
      obtain ⟨added, done⟩ := ih (flat.step (.insert item))
      exact ⟨item :: added, by simpa [run, step] using done⟩
  | context _ _ inside behind =>
      obtain ⟨inner, opened⟩ := inside (flat.step .mark)
      obtain ⟨added, done⟩ := behind flat
      refine ⟨added, ?_⟩
      unfold run at opened done ⊢
      rw [List.cons_append, List.foldl_cons, List.foldl_append, opened, List.foldl_cons, ← done]
      simp [step, release]

/-- A release finds the list as it was at its mark. -/
theorem run_context {inner : List (ContextStep α)} (nested : ContextStep.Nested inner)
    (flat : FlatList α) : flat.run (.mark :: inner ++ [.release]) = flat := by
  obtain ⟨added, opened⟩ := exists_run_nested nested (flat.step .mark)
  unfold run at opened ⊢
  rw [List.cons_append, List.foldl_cons, List.foldl_append, opened]
  simp [step, release]

end FlatList

/-- A flat list with its marks has one layout only. -/
theorem Layer.Layout.unique {layers layers' : List (Layer α)} {flat : FlatList α}
    (layout : Layout layers flat) (layout' : Layout layers' flat) : layers = layers' := by
  induction layout generalizing layers' with
  | root items =>
      generalize same : (⟨items.toList, []⟩ : FlatList α) = flat at layout'
      cases layout' with
      | root items' => rw [Array.toList_inj.1 (FlatList.mk.inj same).1]
      | above below items' => exact absurd (FlatList.mk.inj same).2 (List.cons_ne_nil _ _).symm
  | @above older held marks below items ih =>
      generalize same :
        (⟨held ++ items.toList, held.length :: marks⟩ : FlatList α) = flat at layout'
      cases layout' with
      | root items' => exact absurd (FlatList.mk.inj same).2 (List.cons_ne_nil _ _)
      | above below' items' =>
          obtain ⟨content, noted⟩ := FlatList.mk.inj same
          obtain ⟨length, rfl⟩ := List.cons.inj noted
          obtain ⟨rfl, added⟩ := List.append_inj content length
          rw [ih below', Array.toList_inj.1 added]

/-- A release finds the store as it was at its mark. -/
theorem Layers.Shows.run_context {layers : Layers α} {flat : FlatList α} (shows : layers.Shows flat)
    {inner : List (ContextStep α)} (nested : ContextStep.Nested inner) :
    layers.run (.mark :: inner ++ [.release]) = layers := by
  have closed := shows.run (.mark :: inner ++ [.release])
  rw [FlatList.run_context nested] at closed
  obtain ⟨newest, older⟩ := List.cons.inj (closed.unique shows)
  exact congrArg₂ Layers.mk newest older

/-! ## Items that stay -/

/-- One list holds what another holds, and the marks that it has besides lie behind that. -/
structure FlatList.Within (first last : FlatList α) : Prop where
  items : first.items <+: last.items
  marks : ∃ newer, last.marks = newer ++ first.marks ∧
    ∀ length ∈ newer, first.items.length ≤ length

namespace FlatList.Within

variable {first last : FlatList α}

theorem refl (flat : FlatList α) : flat.Within flat :=
  ⟨List.prefix_rfl, [], rfl, by simp⟩

/-- A step that leaves no fewer marks open than there were at first takes nothing away of what was
there at first. -/
theorem step (within : first.Within last) (step : ContextStep α)
    (kept : first.marks.length ≤ (last.step step).marks.length) :
    first.Within (last.step step) := by
  obtain ⟨items, newer, marks, behind⟩ := within
  cases step with
  | mark =>
      refine ⟨items, last.items.length :: newer, by simp [FlatList.step, marks], ?_⟩
      intro length mem
      rcases List.mem_cons.1 mem with rfl | mem
      · exact items.length_le
      · exact behind length mem
  | insert item =>
      exact ⟨items.trans (List.prefix_append ..), newer, marks, behind⟩
  | release =>
      unfold FlatList.step FlatList.release at kept ⊢
      cases newer with
      | nil =>
          rw [List.nil_append] at marks
          -- Only the release of the root leaves as many marks as there were.
          cases noted : first.marks with
          | nil =>
              rw [marks, noted]
              exact ⟨items, [], by rw [marks, List.nil_append], by simp⟩
          | cons length older =>
              rw [marks, noted] at kept
              exact absurd kept (by simp)
      | cons length newer =>
          rw [marks, List.cons_append]
          refine ⟨?_, newer, rfl, fun length mem => behind length (List.mem_cons_of_mem _ mem)⟩
          exact List.prefix_take_iff.2 ⟨items, behind length List.mem_cons_self⟩

/-- A run that never leaves fewer marks open than there were at first takes nothing away of what was
there at first. -/
theorem run (within : first.Within last) (later : List (ContextStep α))
    (kept : ∀ shorter, shorter <+: later →
      first.marks.length ≤ (last.run shorter).marks.length) :
    first.Within (last.run later) := by
  induction later generalizing last with
  | nil => exact within
  | cons step rest ih =>
      refine ih (within.step step (kept [step] (by simp))) ?_
      intro shorter before
      exact kept (step :: shorter) (List.cons_prefix_cons.2 ⟨rfl, before⟩)

end FlatList.Within

/-! ## The answers of a store -/

/-- **A store is a flat list with a stack of lengths.** Whatever has been marked, released and added
since it was empty, an index finds the item that the flat list of all that is not yet released has
there, and an item that is added gets the length as its index. A mark changes no answer; the root is
not released; a release comes back to what its mark has found; and an item keeps its index for as
long as the context that it was added to is there. -/
theorem Layers.contexts_form_flat_list (steps : List (ContextStep α)) :
    let store := (Layers.empty : Layers α).run steps
    let flat := (FlatList.empty : FlatList α).run steps
    store.size = flat.items.length ∧
    (∀ index, store.get? index = flat.items[index]?) ∧
    (∀ index, store.get? index = none ↔ store.size ≤ index) ∧
    (∀ item, (store.insert item).1 = store.size) ∧
    (store.mark.size = store.size ∧ ∀ index, store.mark.get? index = store.get? index) ∧
    (flat.marks = [] ∧ store.release = .error .layers ∧ store.step .release = store ∨
      flat.marks ≠ [] ∧ store.release = .ok (store.step .release)) ∧
    (∀ inner, ContextStep.Nested inner → store.run (.mark :: inner ++ [.release]) = store) ∧
    (∀ item later,
      (∀ shorter, shorter <+: later →
        store.depth ≤ ((store.insert item).2.run shorter).depth) →
      ((store.insert item).2.run later).get? (store.insert item).1 = some item) := by
  intro store flat
  have shows : store.Shows flat := Shows.empty.run steps
  refine ⟨shows.size, shows.get?, ?_, fun _ => rfl, ⟨?_, ?_⟩, ?_, ?_, ?_⟩
  · intro index
    rw [shows.get?, shows.size, List.getElem?_eq_none_iff]
  · rw [shows.mark.size, shows.size]
    rfl
  · intro index
    rw [shows.mark.get?, shows.get?]
    rfl
  · exact shows.release_cases
  · intro inner nested
    exact shows.run_context nested
  · intro item later kept
    have shows' := shows.insert item
    -- As long as no release goes below where the item was added, all that was there then stays
    -- there.
    have within := (FlatList.Within.refl (flat.step (.insert item))).run later <| by
      intro shorter before
      have open' := kept shorter before
      rw [shows.depth, (shows'.run shorter).depth] at open'
      exact Nat.le_of_succ_le_succ open'
    obtain ⟨behind, items⟩ := within.items
    rw [(shows'.run later).get?, ← items, show (store.insert item).1 = flat.items.length from
      shows.size, List.getElem?_append_left (by simp [FlatList.step])]
    exact List.getElem?_concat_length ..

/-- A store with an empty context below the newest, and an index that has been given out before. -/
theorem Layers.contexts_form_flat_list_of_characters :
    let store := Layers.empty.run [.insert 'a', .mark, .insert 'b', .release, .mark, .mark]
    ContextStep.Nested [.insert 'c', .mark, .insert 'd', .release] ∧
    store.run (.mark :: [.insert 'c', .mark, .insert 'd', .release] ++ [.release]) = store ∧
    (store.insert 'e').1 = 1 ∧
    ((store.insert 'e').2.run [.mark, .insert 'f', .release]).get? 1 = some 'e' := by
  intro store
  have nested : ContextStep.Nested [.insert 'c', .mark, .insert 'd', .release] :=
    .insert 'c' (.context (.insert 'd' .nil) .nil)
  have answers := contexts_form_flat_list
    [.insert 'a', .mark, .insert 'b', .release, .mark, .mark]
  obtain ⟨-, -, -, -, -, -, undone, stays⟩ := answers
  refine ⟨nested, undone _ nested, rfl, stays 'e' [.mark, .insert 'f', .release] ?_⟩
  intro shorter before
  have among := (List.mem_inits ..).2 before
  simp only [List.inits, List.map_cons, List.map_nil, List.mem_cons, List.not_mem_nil,
    or_false] at among
  rcases among with rfl | rfl | rfl | rfl <;> decide

end LiveStack
