import LiveStack.Machine
import LiveStack.Proofs.Code.Reading

/-!
# What running code can see

Besides the stack, code sees of its machine what the names mean, and the code and the requests of
the host, and even this only through the words `eval`, `use`, `words` and `define`. It sees none of
the places in it. So the `Sight` of a machine is that part of it with the places forgotten: it
settles what a name means and what a text reads as, but for places, and a definition changes it in
the same way wherever it is made.
-/

namespace LiveStack

/-! ## Dictionaries and stores without places -/

/-- The entry without the place of its definition. -/
def Entry.unplaced (entry : Entry) : Entry := { entry with location := none }

/-- The entries without their places. -/
def Vocabulary.unplaced (vocabulary : Vocabulary) : Vocabulary :=
  vocabulary.map (Prod.map id Entry.unplaced)

namespace Vocabulary

theorem get?_unplaced (vocabulary : Vocabulary) (name : String) :
    vocabulary.unplaced.get? name = (vocabulary.get? name).map Entry.unplaced := by
  induction vocabulary with
  | nil => rfl
  | cons item rest ih =>
      obtain ⟨key, entry⟩ := item
      show ((key, entry.unplaced) :: unplaced rest).lookup name = _
      rw [get?, List.lookup_cons, List.lookup_cons]
      split
      · rfl
      · exact ih

theorem unplaced_insert (vocabulary : Vocabulary) (name : String) (entry : Entry) :
    (vocabulary.insert name entry).unplaced = vocabulary.unplaced.insert name entry.unplaced := by
  rw [insert, unplaced, List.map_cons, insert, unplaced, List.filter_map]
  rfl

theorem foldr_insert_unplaced (context vocabulary : Vocabulary) :
    (context.unplaced.foldr (fun (name, entry) all => all.insert name entry)
        vocabulary.unplaced : Vocabulary) =
      unplaced (context.foldr (fun (name, entry) all => all.insert name entry) vocabulary) := by
  induction context with
  | nil => rfl
  | cons item rest ih =>
      obtain ⟨key, entry⟩ := item
      rw [List.foldr_cons, unplaced_insert, ← ih]
      rfl

end Vocabulary

namespace Dictionary

/-- The dictionary without the places of the definitions. -/
def unplaced (dictionary : Dictionary) : Dictionary :=
  ⟨dictionary.newest.unplaced, dictionary.older.map Vocabulary.unplaced⟩

theorem contexts_unplaced (dictionary : Dictionary) :
    dictionary.unplaced.contexts = dictionary.contexts.map Vocabulary.unplaced := rfl

theorem get?_unplaced (dictionary : Dictionary) (name : String) :
    dictionary.unplaced.get? name = (dictionary.get? name).map Entry.unplaced := by
  rw [get?, get?, contexts_unplaced]
  induction dictionary.contexts with
  | nil => rfl
  | cons vocabulary older ih =>
      rw [List.map_cons, List.findSome?_cons, List.findSome?_cons, Vocabulary.get?_unplaced]
      cases vocabulary.get? name with
      | none => exact ih
      | some entry => rfl

theorem merged_unplaced (dictionary : Dictionary) :
    dictionary.unplaced.merged = dictionary.merged.unplaced := by
  rw [merged, merged, contexts_unplaced]
  induction dictionary.contexts with
  | nil => rfl
  | cons vocabulary older ih =>
      rw [List.map_cons, List.foldr_cons, List.foldr_cons, ih, Vocabulary.foldr_insert_unplaced]

/-- The names are the same. -/
theorem names_unplaced (dictionary : Dictionary) :
    dictionary.unplaced.names = dictionary.names := by
  rw [names, names, merged_unplaced, Vocabulary.unplaced, List.map_map]
  rfl

end Dictionary

namespace Layers

variable {α β : Type}

/-- Every item replaced. -/
def map (f : α → β) (layers : Layers α) : Layers β :=
  ⟨⟨layers.newest.start, layers.newest.items.map f⟩,
    layers.older.map fun layer => ⟨layer.start, layer.items.map f⟩⟩

theorem get?_map (f : α → β) (layers : Layers α) (index : Nat) :
    (layers.map f).get? index = (layers.get? index).map f := by
  have find (layers : List (Layer α)) :
      (layers.map fun layer => (⟨layer.start, layer.items.map f⟩ : Layer β)).find?
          (·.start ≤ index) =
        (layers.find? (·.start ≤ index)).map fun layer => ⟨layer.start, layer.items.map f⟩ := by
    rw [List.find?_map]
    rfl
  have whole := find (layers.newest :: layers.older)
  rw [List.map_cons] at whole
  rw [get?, get?, map, whole]
  cases (layers.newest :: layers.older).find? (·.start ≤ index) with
  | none => rfl
  | some layer => exact Array.getElem?_map ..

theorem size_map (f : α → β) (layers : Layers α) : (layers.map f).size = layers.size := by
  simp [map, size]

theorem map_push (f : α → β) (layers : Layers α) (item : α) :
    (layers.push item).map f = (layers.map f).push (f item) := by
  simp [map, push]

end Layers

/-! ## Sight -/

/-- What running code can see of a machine besides the stack. -/
structure Sight where
  dictionary : Dictionary
  handlers : Layers Word
  fetch : String → Option String
  requests : Array String

namespace Sight

/-- What a name means, but for places. -/
def bind (sight : Sight) : Binding := fun name => do
  let entry ← sight.dictionary.get? name
  sight.handlers.get? entry.handler

/-- The sight of a machine with one word more. -/
def define (sight : Sight) (name : String) (body : Code) : Sight :=
  { sight with
    dictionary := sight.dictionary.insert name
      { location := none, name, kind := .secondary, handler := sight.handlers.size }
    handlers := sight.handlers.push ⟨name, .secondary body⟩ }

/-- The sight of a machine whose host has had one request more. -/
def request (sight : Sight) (name : String) : Sight :=
  { sight with requests := sight.requests.push name }

end Sight

namespace Machine

/-- What running code can see of the machine. -/
def sight (machine : Machine) : Sight where
  dictionary := machine.dictionary.unplaced
  handlers := machine.handlers.map Word.unplaced
  fetch := machine.host.fetch
  requests := machine.host.requests

theorem bind_sight (machine : Machine) (name : String) :
    machine.sight.bind name = (machine.bind name).map Word.unplaced := by
  rw [Sight.bind, bind, sight, Dictionary.get?_unplaced]
  cases machine.dictionary.get? name with
  | none => rfl
  | some entry => exact Layers.get?_map Word.unplaced machine.handlers entry.handler

theorem sight_define (machine : Machine) (name : String) (body : Code) :
    (machine.define name body).sight = machine.sight.define name (Code.unplaced body) := by
  rw [define, addWord, Layers.insert, sight, sight, Sight.define, Layers.map_push, Layers.size_map]
  simp only [Dictionary.unplaced, Dictionary.insert, Vocabulary.unplaced_insert]
  rfl

variable {first second : Machine}

/-- The same names mean the same. -/
theorem bind_of_sight (same : first.sight = second.sight) (name : String) :
    (first.bind name).map Word.unplaced = (second.bind name).map Word.unplaced := by
  rw [← bind_sight, same, bind_sight]

/-- The same words are listed. -/
theorem wordList_of_sight (same : first.sight = second.sight) :
    Code.unplaced first.wordList = Code.unplaced second.wordList := by
  have listed (machine : Machine) : Code.unplaced machine.wordList =
      (machine.sight.dictionary.names.filterMap machine.sight.bind).map fun word =>
        .made (.word word) := by
    have binds : machine.sight.bind = fun name => (machine.bind name).map Word.unplaced :=
      funext machine.bind_sight
    rw [wordList, Code.unplaced_eq_map, List.map_map, binds, sight, Dictionary.names_unplaced,
      ← List.map_filterMap, List.map_map]
    rfl
  rw [listed, listed, same]

/-- A text reads as the same code. -/
theorem ofSource_of_sight (same : first.sight = second.sight) (name source : String) :
    Code.unplaced (Code.ofSource first.bind name source).1 =
      Code.unplaced (Code.ofSource second.bind name source).1 :=
  Code.ofTokens_like rfl rfl fun lexeme _ => bind_of_sight same lexeme.text

end Machine

end LiveStack
