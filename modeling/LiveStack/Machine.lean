import LiveStack.Code.Parser
import LiveStack.Dictionary

/-!
# The machine

A `Machine` is everything that running code reads and changes: the data stack, the words being
called, the dictionary with its store of handlers, and what has been said to the host. Nothing in
it runs code yet.
-/

namespace LiveStack

/-- What surrounds a machine: the code it can ask for by name, and what it did there so far. The
code is fixed: a host that answers differently when it is asked again, because a file has changed in
between, is not described. -/
structure Host where
  /-- The source text held under a name. -/
  fetch : String → Option String
  /-- The messages shown to the user, oldest first. -/
  alerts : Array String := #[]
  /-- The names that code was asked for by, oldest first. -/
  requests : Array String := #[]

/-- A host that holds no code. -/
def Host.empty : Host := { fetch := fun _ => none }

/-- The state of the language's engine. -/
structure Machine where
  host : Host
  /-- How deeply words may call each other. -/
  limit : Nat
  /-- The data stack, top first. -/
  stack : List Value := []
  /-- The last place in the text that execution reached. -/
  location : Option Location := none
  /-- The words being called, innermost first. -/
  calls : List Call := []
  dictionary : Dictionary := .empty
  /-- What the words in the dictionary do. -/
  handlers : Layers Word := .empty
  /-- Problems of reading, oldest first, not yet taken. -/
  diagnostics : List Fault := []

namespace Machine

/-- What a name means now. -/
def bind (machine : Machine) : Binding := fun name => do
  let entry ← machine.dictionary.get? name
  machine.handlers.get? entry.handler

/-- Open a new context in the dictionary and in the store of handlers. -/
def mark (machine : Machine) : Machine :=
  { machine with
    dictionary := machine.dictionary.mark
    handlers := machine.handlers.mark }

/-- Forget the newest context of the dictionary and of the store of handlers. -/
def release (machine : Machine) : Except RootReleased Machine := do
  let dictionary ← machine.dictionary.release
  let handlers ← machine.handlers.release
  return { machine with dictionary, handlers }

/-- Forget all that happened since the newest context was marked, and mark it again. -/
def reset (machine : Machine) : Except RootReleased Machine := do
  let released ← machine.release
  return mark { released with stack := [], calls := [], location := none, diagnostics := [] }

/-- Add a word to the newest context. -/
def addWord (machine : Machine) (location : Option Location) (word : Word)
    (description signature : String) : Machine :=
  let inserted := machine.handlers.insert word
  let entry : Entry := {
    location, description, signature
    name := word.name
    kind := word.handler.kind
    handler := inserted.1 }
  { machine with
    dictionary := machine.dictionary.insert word.name entry
    handlers := inserted.2 }

/-- Add a word whose meaning is the given body, as defined at the present place. -/
def define (machine : Machine) (name : String) (body : Code) : Machine :=
  machine.addWord (some (machine.location.getD .unspecified)) ⟨name, .secondary body⟩ "" ""

/-- Add a built-in word. It is defined in no text, so it has no place here; the program itself notes
down the line of its own text where the word is made, which nothing that runs looks at. -/
def addPrimitive (machine : Machine) (primitive : Primitive) : Machine :=
  machine.addWord none ⟨primitive.name, .primitive primitive⟩
    primitive.info.description primitive.info.signature

/-- A machine without words. One context is marked above the root. -/
def new (limit : Nat) (host : Host) : Machine :=
  mark { limit, host }

/-- A fault with the machine's present circumstances. -/
def fault (machine : Machine) (cause : Cause) : Fault :=
  ⟨machine.location, cause, some machine.calls⟩

/-- The code of every defined word, in order of their names. -/
def wordList (machine : Machine) : Code :=
  (machine.dictionary.names.filterMap machine.bind).map fun word => .made (.word word)

end Machine

end LiveStack
