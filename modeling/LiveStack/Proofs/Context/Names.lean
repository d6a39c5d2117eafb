import Mathlib.Data.List.Forall2
import Mathlib.Data.List.Nodup
import LiveStack.Proofs.Context.Items
import LiveStack.Proofs.Run.Words

/-!
# Names in contexts

The dictionary answers for the flat list of all definitions that are not yet released: a name means
what its newest definition there says. The same is found by going through the contexts from the
newest on and by laying them one over the other from the root on. Neither depends on the order in
which the names of one context are gone through, because each of them is there once.
-/

namespace LiveStack

/-! ## One context -/

namespace Vocabulary

/-- Every name has one entry. -/
def Distinct (vocabulary : Vocabulary) : Prop := (vocabulary.map (·.1)).Nodup

theorem distinct_nil : Distinct [] := List.nodup_nil

theorem Distinct.insert {vocabulary : Vocabulary} (distinct : vocabulary.Distinct) (name : String)
    (entry : Entry) : (vocabulary.insert name entry).Distinct := by
  have kept : ((vocabulary.filter (·.1 ≠ name)).map (·.1)).Nodup :=
    List.Nodup.sublist (List.filter_sublist.map _) distinct
  refine List.nodup_cons.2 ⟨?_, kept⟩
  intro mem
  obtain ⟨item, among, same⟩ := List.mem_map.1 mem
  simpa [same] using (List.mem_filter.1 among).2

theorem Distinct.get?_eq_some_iff {vocabulary : Vocabulary} (distinct : vocabulary.Distinct)
    (name : String) (entry : Entry) :
    vocabulary.get? name = some entry ↔ (name, entry) ∈ vocabulary := by
  induction vocabulary with
  | nil => simp [get?]
  | cons item rest ih =>
      obtain ⟨key, held⟩ := item
      obtain ⟨apart, distinct⟩ := List.nodup_cons.1 distinct
      rw [get?_cons, List.mem_cons]
      by_cases same : name = key
      · subst same
        have absent : (name, entry) ∉ rest := fun mem =>
          apart (List.mem_map.2 ⟨(name, entry), mem, rfl⟩)
        simp [absent, eq_comm]
      · simp [same, ih distinct]

/-- The order of the entries makes no difference. -/
theorem Distinct.get?_of_perm {vocabulary reordered : Vocabulary} (distinct : vocabulary.Distinct)
    (perm : reordered.Perm vocabulary) (name : String) :
    reordered.get? name = vocabulary.get? name := by
  have distinct' : reordered.Distinct := (perm.map Prod.fst).nodup_iff.2 distinct
  refine Option.ext fun entry => ?_
  rw [distinct'.get?_eq_some_iff, distinct.get?_eq_some_iff, perm.mem_iff]

/-- The entries of one context over those of the contexts below it. -/
def laidOver (context older : Vocabulary) : Vocabulary :=
  context.foldr (fun (name, entry) all => all.insert name entry) older

theorem get?_laidOver (context older : Vocabulary) (name : String) :
    (context.laidOver older).get? name = (context.get? name).or (older.get? name) := by
  induction context with
  | nil => rfl
  | cons item rest ih =>
      obtain ⟨key, entry⟩ := item
      show ((laidOver rest older).insert key entry).get? name = _
      rw [get?_insert, ih, get?_cons]
      split <;> rfl

theorem Distinct.laidOver {older : Vocabulary} (distinct : older.Distinct) (context : Vocabulary) :
    (context.laidOver older).Distinct := by
  induction context with
  | nil => exact distinct
  | cons item rest ih => exact ih.insert item.1 item.2

/-- The context that some definitions make, the first of them made first. -/
def ofDefinitions (items : List (String × Entry)) : Vocabulary :=
  items.foldl (fun vocabulary item => vocabulary.insert item.1 item.2) []

theorem ofDefinitions_concat (items : List (String × Entry)) (name : String) (entry : Entry) :
    ofDefinitions (items ++ [(name, entry)]) = (ofDefinitions items).insert name entry := by
  simp [ofDefinitions]

theorem distinct_ofDefinitions (items : List (String × Entry)) :
    (ofDefinitions items).Distinct := by
  induction items using List.reverseRecOn with
  | nil => exact distinct_nil
  | append_singleton items item ih =>
      rw [ofDefinitions_concat]
      exact ih.insert item.1 item.2

/-- The last definition of a name counts. -/
theorem get?_ofDefinitions (items : List (String × Entry)) (name : String) :
    (ofDefinitions items).get? name = items.reverse.lookup name := by
  induction items using List.reverseRecOn with
  | nil => rfl
  | append_singleton items item ih =>
      rw [ofDefinitions_concat, get?_insert, ih, List.reverse_concat]
      exact (get?_cons item.1 item.2 items.reverse name).symm

/-! ## All contexts -/

/-- Contexts, the newest first, that the definitions of a flat list make between its marks. -/
inductive Layout : List Vocabulary → FlatList (String × Entry) → Prop
  | root (items : List (String × Entry)) : Layout [ofDefinitions items] ⟨items, []⟩
  | above {older : List Vocabulary} {held : List (String × Entry)} {marks : List Nat}
      (below : Layout older ⟨held, marks⟩) (items : List (String × Entry)) :
      Layout (ofDefinitions items :: older) ⟨held ++ items, held.length :: marks⟩

namespace Layout

variable {contexts : List Vocabulary} {flat : FlatList (String × Entry)}

theorem findSome?_eq (layout : Layout contexts flat) (name : String) :
    contexts.findSome? (·.get? name) = flat.items.reverse.lookup name := by
  induction layout with
  | root items => simp [get?_ofDefinitions]
  | above below items ih =>
      rw [List.findSome?_cons, ih, get?_ofDefinitions, List.reverse_append, List.lookup_append]
      cases items.reverse.lookup name <;> rfl

theorem distinct (layout : Layout contexts flat) : ∀ context ∈ contexts, context.Distinct := by
  induction layout with
  | root items => simpa using distinct_ofDefinitions items
  | above below items ih =>
      intro context mem
      rcases List.mem_cons.1 mem with rfl | mem
      · exact distinct_ofDefinitions items
      · exact ih context mem

end Layout

end Vocabulary

namespace Dictionary

/-- The dictionary after a step. The release of the root is refused, and changes nothing. -/
def step (dictionary : Dictionary) : ContextStep (String × Entry) → Dictionary
  | .mark => dictionary.mark
  | .release => dictionary.release.toOption.getD dictionary
  | .insert (name, entry) => dictionary.insert name entry

/-- The dictionary after some steps. -/
def run (dictionary : Dictionary) (steps : List (ContextStep (String × Entry))) : Dictionary :=
  steps.foldl step dictionary

/-- The contexts of a dictionary hold the definitions of a flat list. -/
def Shows (dictionary : Dictionary) (flat : FlatList (String × Entry)) : Prop :=
  Vocabulary.Layout dictionary.contexts flat

namespace Shows

variable {dictionary : Dictionary} {flat : FlatList (String × Entry)}

theorem empty : Dictionary.empty.Shows .empty := .root []

theorem get? (shows : dictionary.Shows flat) (name : String) :
    dictionary.get? name = flat.items.reverse.lookup name :=
  shows.findSome?_eq name

/-- Only the root is not released. -/
theorem release_cases (shows : dictionary.Shows flat) :
    flat.marks = [] ∧ dictionary.release = .error .dictionary ∧
        dictionary.step .release = dictionary ∨
      flat.marks ≠ [] ∧ dictionary.release = .ok (dictionary.step .release) := by
  obtain ⟨newest, older⟩ := dictionary
  cases shows with
  | root items => exact .inl ⟨rfl, rfl, rfl⟩
  | above below items => cases below <;> exact .inr ⟨List.cons_ne_nil _ _, rfl⟩

/-- What one step keeps. -/
theorem step (shows : dictionary.Shows flat) (step : ContextStep (String × Entry)) :
    (dictionary.step step).Shows (flat.step step) := by
  cases step with
  | mark =>
      have above := Vocabulary.Layout.above shows []
      rw [List.append_nil] at above
      exact above
  | insert item =>
      obtain ⟨name, entry⟩ := item
      obtain ⟨newest, older⟩ := dictionary
      show Vocabulary.Layout (newest.insert name entry :: older)
        ⟨flat.items ++ [(name, entry)], flat.marks⟩
      cases shows with
      | root items =>
          have root := Vocabulary.Layout.root (items ++ [(name, entry)])
          rw [Vocabulary.ofDefinitions_concat] at root
          exact root
      | above below items =>
          have above := Vocabulary.Layout.above below (items ++ [(name, entry)])
          rw [Vocabulary.ofDefinitions_concat, ← List.append_assoc] at above
          exact above
  | release =>
      obtain ⟨newest, older⟩ := dictionary
      cases shows with
      | root items => exact .root items
      | @above _ held marks below items =>
          -- What lies below the mark is the flat list up to the length that was noted.
          have truncated : (held ++ items).take held.length = held := List.take_left ..
          show Dictionary.Shows (Dictionary.step _ .release)
            ⟨(held ++ items).take held.length, marks⟩
          rw [truncated]
          cases below with
          | root => exact .root held
          | above below items => exact .above below items

/-- What a run keeps. -/
theorem run (shows : dictionary.Shows flat) (steps : List (ContextStep (String × Entry))) :
    (dictionary.run steps).Shows (flat.run steps) := by
  induction steps generalizing dictionary flat with
  | nil => exact shows
  | cons step rest ih => exact ih (shows.step step)

end Shows

/-! ## The contexts laid over each other -/

theorem get?_merged (dictionary : Dictionary) (name : String) :
    dictionary.merged.get? name = dictionary.get? name := by
  show (dictionary.contexts.foldr Vocabulary.laidOver []).get? name =
    dictionary.contexts.findSome? (·.get? name)
  induction dictionary.contexts with
  | nil => rfl
  | cons context older ih =>
      rw [List.foldr_cons, Vocabulary.get?_laidOver, ih, List.findSome?_cons]
      cases context.get? name <;> rfl

theorem distinct_merged (dictionary : Dictionary) : dictionary.merged.Distinct := by
  show (dictionary.contexts.foldr Vocabulary.laidOver []).Distinct
  induction dictionary.contexts with
  | nil => exact Vocabulary.distinct_nil
  | cons context older ih => exact ih.laidOver context

theorem mem_merged_iff (dictionary : Dictionary) (name : String) (entry : Entry) :
    (name, entry) ∈ dictionary.merged ↔ dictionary.get? name = some entry := by
  rw [← dictionary.distinct_merged.get?_eq_some_iff, get?_merged]

theorem mem_names_iff (dictionary : Dictionary) (name : String) :
    name ∈ dictionary.names ↔ ∃ entry, dictionary.get? name = some entry := by
  unfold names
  rw [(List.mergeSort_perm ..).mem_iff, List.mem_map]
  constructor
  · rintro ⟨⟨key, entry⟩, mem, rfl⟩
    exact ⟨entry, (mem_merged_iff ..).1 mem⟩
  · rintro ⟨entry, found⟩
    exact ⟨(name, entry), (mem_merged_iff ..).2 found, rfl⟩

theorem names_increase (dictionary : Dictionary) : dictionary.names.Pairwise (· < ·) := by
  have sorted : dictionary.names.Pairwise (fun name other => decide (name ≤ other) = true) := by
    refine List.pairwise_mergeSort ?_ ?_ _
    · intro first second third
      simpa using String.le_trans
    · intro first second
      simpa using String.le_total first second
  have distinct : dictionary.names.Nodup :=
    (List.mergeSort_perm ..).nodup_iff.2 dictionary.distinct_merged
  exact (sorted.and distinct).imp fun ⟨le, ne⟩ => Std.lt_of_le_of_ne (of_decide_eq_true le) ne

/-! ## The order within a context -/

/-- The same contexts, the entries of each in another order. -/
def Reordered (reordered dictionary : Dictionary) : Prop :=
  List.Forall₂ List.Perm reordered.contexts dictionary.contexts

namespace Reordered

variable {reordered dictionary : Dictionary}

theorem get?_eq (same : reordered.Reordered dictionary)
    (distinct : ∀ context ∈ dictionary.contexts, context.Distinct) (name : String) :
    reordered.get? name = dictionary.get? name := by
  unfold Reordered at same
  unfold Dictionary.get?
  generalize reordered.contexts = contexts, dictionary.contexts = contexts' at same distinct
  induction same with
  | nil => rfl
  | cons perm _ ih =>
      obtain ⟨newest, older⟩ := List.forall_mem_cons.1 distinct
      rw [List.findSome?_cons, List.findSome?_cons, newest.get?_of_perm perm, ih older]

theorem merged_perm (same : reordered.Reordered dictionary)
    (distinct : ∀ context ∈ dictionary.contexts, context.Distinct) :
    reordered.merged.Perm dictionary.merged := by
  have once : ∀ dictionary : Dictionary, dictionary.merged.Nodup :=
    fun dictionary => List.Nodup.of_map Prod.fst dictionary.distinct_merged
  refine (List.perm_ext_iff_of_nodup (once _) (once _)).2 fun (name, entry) => ?_
  rw [mem_merged_iff, mem_merged_iff, same.get?_eq distinct]

theorem names_eq (same : reordered.Reordered dictionary)
    (distinct : ∀ context ∈ dictionary.contexts, context.Distinct) :
    reordered.names = dictionary.names := by
  have perm : reordered.names.Perm dictionary.names :=
    (List.mergeSort_perm ..).trans
      (((same.merged_perm distinct).map Prod.fst).trans (List.mergeSort_perm ..).symm)
  refine perm.eq_of_pairwise ?_ (names_increase reordered) (names_increase dictionary)
  intro first second _ _ less more
  exact absurd more (String.lt_asymm less)

end Reordered

/-! ## The views of a dictionary -/

/-- **The views of a dictionary agree.** Whatever has been marked, released and defined since it was
empty, a name means what its newest definition says among those that are not yet released. The
contexts laid over each other hold just the names that mean something, each once and with that
meaning; the names are just these, in strict order. The root is not released, a release comes back
to what its mark has found, and none of the views depends on the order in which a context holds its
entries. -/
theorem views_agree (steps : List (ContextStep (String × Entry))) :
    let dictionary := Dictionary.empty.run steps
    let flat := (FlatList.empty : FlatList (String × Entry)).run steps
    (∀ name, dictionary.get? name = flat.items.reverse.lookup name) ∧
    (flat.marks = [] ∧ dictionary.release = .error .dictionary ∧
        dictionary.step .release = dictionary ∨
      flat.marks ≠ [] ∧ dictionary.release = .ok (dictionary.step .release)) ∧
    (∀ inner, ContextStep.Nested inner → ∀ name,
      (dictionary.run (.mark :: inner ++ [.release])).get? name = dictionary.get? name) ∧
    ((dictionary.merged.map (·.1)).Nodup ∧
      ∀ name entry, (name, entry) ∈ dictionary.merged ↔ dictionary.get? name = some entry) ∧
    (∀ name, dictionary.merged.get? name = dictionary.get? name) ∧
    (∀ name, dictionary.contains name = true ↔ ∃ entry, dictionary.get? name = some entry) ∧
    (∀ name, name ∈ dictionary.names ↔ ∃ entry, dictionary.get? name = some entry) ∧
    dictionary.names.Pairwise (· < ·) ∧
    (∀ reordered : Dictionary, reordered.Reordered dictionary →
      (∀ name, reordered.get? name = dictionary.get? name) ∧
      reordered.merged.Perm dictionary.merged ∧
      (∀ name, reordered.merged.get? name = dictionary.merged.get? name) ∧
      reordered.names = dictionary.names) := by
  intro dictionary flat
  have shows : dictionary.Shows flat := Shows.empty.run steps
  refine ⟨shows.get?, shows.release_cases, ?_, ⟨dictionary.distinct_merged,
    dictionary.mem_merged_iff⟩, dictionary.get?_merged, ?_, dictionary.mem_names_iff,
    dictionary.names_increase, ?_⟩
  · intro inner nested name
    rw [(shows.run _).get?, FlatList.run_context nested, shows.get?]
  · intro name
    exact Option.isSome_iff_exists
  · intro reordered same
    have same_get? := same.get?_eq shows.distinct
    refine ⟨same_get?, same.merged_perm shows.distinct, ?_, same.names_eq shows.distinct⟩
    intro name
    rw [get?_merged, get?_merged, same_get?]

/-- A name that is defined in two contexts, and twice in one of them; the other order of the root is
another dictionary. -/
theorem views_agree_of_shadowed_name :
    let entry (handler : Nat) : Entry :=
      { location := none, name := "", kind := .secondary, handler := handler }
    let dictionary := Dictionary.empty.run
      [.insert ("a", entry 0), .insert ("b", entry 1), .insert ("a", entry 2), .mark]
    let reordered : Dictionary := ⟨[], [[("b", entry 1), ("a", entry 2)]]⟩
    reordered ≠ dictionary ∧ reordered.Reordered dictionary ∧
    reordered.names = dictionary.names ∧
    ContextStep.Nested [.insert ("a", entry 3)] ∧
    (dictionary.run (.mark :: [.insert ("a", entry 3)] ++ [.release])).get? "a" =
      dictionary.get? "a" := by
  intro entry dictionary reordered
  obtain ⟨-, -, undone, -, -, -, -, -, order⟩ := views_agree
    [.insert ("a", entry 0), .insert ("b", entry 1), .insert ("a", entry 2), .mark]
  have same : reordered.Reordered dictionary :=
    .cons .rfl (.cons (.swap ..) .nil)
  have nested : ContextStep.Nested [.insert ("a", entry 3)] := .insert _ .nil
  exact ⟨by decide, same, (order reordered same).2.2.2, nested, undone _ nested "a"⟩

end Dictionary

end LiveStack
