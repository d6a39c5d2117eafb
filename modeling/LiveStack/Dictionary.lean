import LiveStack.Context
import LiveStack.Literal

/-!
# The dictionary

The dictionary says what each name means now. It is divided into contexts: a name defined in a
newer context hides the same name in an older one until that context is released, and defining a
name twice in one context forgets the first meaning for good.
-/

namespace LiveStack

/-- What the dictionary holds about a word. -/
structure Entry where
  /-- Where the word was defined; built-in words were defined nowhere. -/
  location : Option Location
  name : String
  kind : WordKind
  description : String := ""
  signature : String := ""
  /-- The index of the word's handler in the store of handlers. -/
  handler : Nat
deriving DecidableEq, Repr

/-- How a token reads, to the editor. -/
inductive TokenClass where
  | string
  | number
  | boolean
  | primitive
  | secondary
  | unknown
deriving DecidableEq, Repr

/-- The class of words of a kind. -/
def TokenClass.ofKind : WordKind → TokenClass
  | .primitive => .primitive
  | .secondary => .secondary

/-- The class of a token that is no word. -/
def TokenClass.ofLiteral (token : String) : TokenClass :=
  match Literal.read? token with
  | some (.string _) => .string
  | some (.bool _) => .boolean
  | some _ => .number
  | none => .unknown

/-- The entries of one context, one for each name. -/
abbrev Vocabulary := List (String × Entry)

namespace Vocabulary

/-- Set the entry of a name. -/
def insert (vocabulary : Vocabulary) (name : String) (entry : Entry) : Vocabulary :=
  (name, entry) :: vocabulary.filter (·.1 ≠ name)

/-- The entry of a name. -/
def get? (vocabulary : Vocabulary) (name : String) : Option Entry :=
  vocabulary.lookup name

end Vocabulary

/-- Contexts of entries, the newest apart. -/
structure Dictionary where
  newest : Vocabulary
  older : List Vocabulary
deriving DecidableEq, Repr

namespace Dictionary

/-- No words, and only the root context. -/
def empty : Dictionary := ⟨[], []⟩

/-- Open a new context. -/
def mark (dictionary : Dictionary) : Dictionary :=
  ⟨[], dictionary.newest :: dictionary.older⟩

/-- Forget the newest context. -/
def release (dictionary : Dictionary) : Except RootReleased Dictionary :=
  match dictionary.older with
  | [] => .error .dictionary
  | newest :: older => .ok ⟨newest, older⟩

/-- Define a name in the newest context. -/
def insert (dictionary : Dictionary) (name : String) (entry : Entry) : Dictionary :=
  { dictionary with newest := dictionary.newest.insert name entry }

/-- The contexts, newest first. -/
def contexts (dictionary : Dictionary) : List Vocabulary :=
  dictionary.newest :: dictionary.older

/-- The number of contexts. -/
def depth (dictionary : Dictionary) : Nat := dictionary.contexts.length

/-- What a name means now: its entry in the newest context that has one. -/
def get? (dictionary : Dictionary) (name : String) : Option Entry :=
  dictionary.contexts.findSome? (·.get? name)

/-- Whether a name means anything. -/
def contains (dictionary : Dictionary) (name : String) : Bool :=
  (dictionary.get? name).isSome

/-- The meaning of every name, each once: older contexts first, newer ones over them. -/
def merged (dictionary : Dictionary) : Vocabulary :=
  dictionary.contexts.foldr
    (fun context older => context.foldr (fun (name, entry) all => all.insert name entry) older) []

/-- Every name once, in order. -/
def names (dictionary : Dictionary) : List String :=
  (dictionary.merged.map (·.1)).mergeSort (· ≤ ·)

/-- How a token reads: as a word if it is one, else as a literal. -/
def classify (dictionary : Dictionary) (token : String) : TokenClass :=
  match dictionary.get? token with
  | some entry => .ofKind entry.kind
  | none => .ofLiteral token

/-- The text with blanks behind it up to `width` characters. -/
def padded (width : Nat) (text : String) : String :=
  text ++ "".pushn ' ' (width - text.length)

/-- One line of the listing. The names' column is as wide as the longest name in bytes. -/
def listingLine (width : Nat) (name : String) (entry : Entry) : String :=
  s!"{padded width name}  {padded 9 entry.kind.render}  {padded 14 entry.signature}  " ++
    s!"{entry.description}\n"

/-- All words, sorted by name, with kind, signature and description. -/
def listing (dictionary : Dictionary) : String :=
  let merged := dictionary.merged
  let width := (merged.map (·.1.utf8ByteSize)).foldl max 0
  let lines := dictionary.names.filterMap fun name =>
    (merged.get? name).map (listingLine width name)
  s!"{merged.length} words defined.\n\n" ++ String.join lines

end Dictionary

end LiveStack
