import LiveStack.Proofs.Run.Changes

/-!
# What the words mean

Defining a word gives its name the new meaning and leaves every other name as it was. That needs
the dictionary and the store of handlers to stay in step: no entry may point past the handlers that
there are, or a later word would be taken for its handler. A word that is added keeps them in step,
and no word has a name that would read as a string.
-/

namespace LiveStack

theorem Vocabulary.get?_cons (key : String) (held : Entry) (rest : Vocabulary) (name : String) :
    get? ((key, held) :: rest) name = if name = key then some held else rest.get? name := by
  unfold get?
  rw [List.lookup_cons]
  by_cases same : name = key
  · simp [same]
  · have missed : (name == key) = false := by simpa using same
    rw [missed, if_neg same]

theorem Vocabulary.lookup_filter_ne {name other : String} (differs : other ≠ name)
    (vocabulary : Vocabulary) :
    (vocabulary.filter (·.1 ≠ name)).lookup other = vocabulary.lookup other := by
  induction vocabulary with
  | nil => rfl
  | cons item rest ih =>
      obtain ⟨key, entry⟩ := item
      rw [List.lookup_cons]
      by_cases found : other = key
      · subst found
        simp [differs]
      · have missed : (other == key) = false := by simpa using found
        rw [missed, List.filter_cons]
        split
        · rw [List.lookup_cons, missed, ih]
        · exact ih

theorem Vocabulary.get?_insert (vocabulary : Vocabulary) (name other : String) (entry : Entry) :
    (vocabulary.insert name entry).get? other =
      if other = name then some entry else vocabulary.get? other := by
  rw [insert, get?_cons]
  by_cases same : other = name
  · rw [if_pos same, if_pos same]
  · rw [if_neg same, if_neg same]
    exact lookup_filter_ne same vocabulary

namespace Dictionary

theorem get?_insert (dictionary : Dictionary) (name other : String) (entry : Entry) :
    (dictionary.insert name entry).get? other =
      if other = name then some entry else dictionary.get? other := by
  show ((dictionary.newest.insert name entry) :: dictionary.older).findSome? (·.get? other) = _
  rw [List.findSome?_cons, Vocabulary.get?_insert, get?, contexts, List.findSome?_cons]
  by_cases same : other = name
  · rw [if_pos same, if_pos same]
  · rw [if_neg same, if_neg same]

end Dictionary

namespace Layers

variable {α : Type}

@[simp] theorem size_push (layers : Layers α) (item : α) :
    (layers.push item).size = layers.size + 1 := by
  simp [push, size]
  omega

/-- A new item has the next index. -/
theorem get?_push_size (layers : Layers α) (item : α) :
    (layers.push item).get? layers.size = some item := by
  simp [get?, push, size]

theorem get?_push_of_lt (layers : Layers α) (item : α) {index : Nat}
    (old : index < layers.size) : (layers.push item).get? index = layers.get? index := by
  by_cases newest : layers.newest.start ≤ index
  · have inside : index - layers.newest.start < layers.newest.items.size := by
      rw [size] at old
      omega
    simp [get?, push, newest, Array.getElem?_push, Nat.ne_of_lt inside]
  · simp [get?, push, newest]

theorem get?_mark_of_lt (layers : Layers α) {index : Nat} (old : index < layers.size) :
    layers.mark.get? index = layers.get? index := by
  have missed : ¬ layers.size ≤ index := Nat.not_le.2 old
  simp [get?, mark, missed]

end Layers

namespace Machine

/-- The dictionary and the handlers are in step, and no name reads as a string. -/
structure Orderly (machine : Machine) : Prop where
  unquoted : ∀ name, name.toList.head? = some '"' → machine.dictionary.get? name = none
  stored : ∀ name entry, machine.dictionary.get? name = some entry →
    entry.handler < machine.handlers.size

theorem Orderly.bind_quoted {machine : Machine} (orderly : machine.Orderly) {name : String}
    (quoted : name.toList.head? = some '"') : machine.bind name = none := by
  simp [bind, orderly.unquoted name quoted]

theorem Orderly.addWord {machine : Machine} (orderly : machine.Orderly)
    (location : Option Location) (word : Word) (description signature : String)
    (unquoted : word.name.toList.head? ≠ some '"') :
    (machine.addWord location word description signature).Orderly := by
  constructor
  · intro name quoted
    have differs : name ≠ word.name := fun same => unquoted (same ▸ quoted)
    rw [Machine.addWord, Dictionary.get?_insert, if_neg differs]
    exact orderly.unquoted name quoted
  · intro name entry found
    rw [Machine.addWord, Dictionary.get?_insert] at found
    show entry.handler < (machine.handlers.push word).size
    rw [Layers.size_push]
    split at found
    · cases found
      exact Nat.lt_succ_self _
    · exact Nat.lt_succ_of_lt (orderly.stored name entry found)

theorem Orderly.mark {machine : Machine} (orderly : machine.Orderly) : machine.mark.Orderly :=
  ⟨orderly.unquoted, orderly.stored⟩

theorem unquoted_of_valid {name : String} (valid : nameProblem? name = none) :
    name.toList.head? ≠ some '"' := by
  intro quoted
  rw [nameProblem?] at valid
  split at valid
  · cases valid
  · cases valid

theorem Orderly.define {machine : Machine} (orderly : machine.Orderly) {name : String}
    (body : Code) (valid : nameProblem? name = none) : (machine.define name body).Orderly :=
  orderly.addWord _ _ _ _ (unquoted_of_valid valid)

/-! ## Meanings -/

theorem bind_mark {machine : Machine} (orderly : machine.Orderly) :
    machine.mark.bind = machine.bind := by
  funext name
  show (do
    let entry ← machine.dictionary.get? name
    machine.handlers.mark.get? entry.handler) = machine.bind name
  rw [bind]
  cases found : machine.dictionary.get? name with
  | none => rfl
  | some entry => exact Layers.get?_mark_of_lt _ (orderly.stored name entry found)

/-- A word that is added is what its name means, and other names mean what they did. -/
theorem bind_addWord {machine : Machine} (orderly : machine.Orderly)
    (location : Option Location) (word : Word) (description signature name : String) :
    (machine.addWord location word description signature).bind name =
      if name = word.name then some word else machine.bind name := by
  rw [bind, addWord, Dictionary.get?_insert]
  by_cases same : name = word.name
  · rw [if_pos same, if_pos same]
    exact Layers.get?_push_size machine.handlers word
  · rw [if_neg same, if_neg same, bind]
    cases found : machine.dictionary.get? name with
    | none => rfl
    | some entry =>
        exact Layers.get?_push_of_lt machine.handlers word (orderly.stored name entry found)

theorem bind_define {machine : Machine} (orderly : machine.Orderly) (name : String) (body : Code)
    (other : String) :
    (machine.define name body).bind other =
      if other = name then some ⟨name, .secondary body⟩ else machine.bind other :=
  bind_addWord orderly _ _ _ _ other

end Machine

end LiveStack
