import LiveStack.Location

/-!
# Reading a text forwards

A `Reader` is what is left of a text together with the place of its first character. Looking at
the next character changes nothing; taking it moves the place past it.

Where the text comes as a stream, which gives each character once, a character can't be looked at
without being taken from the stream. A `Buffer` holds it until it is asked for.
-/

namespace LiveStack

/-- The unread rest of a text, and where that rest begins. -/
structure Reader where
  location : Location
  rest : List Char
deriving DecidableEq, Repr

namespace Reader

/-- A reader at the first character of `text`. -/
def ofString (name text : String) : Reader := ⟨.start name, text.toList⟩

/-- The next character, if there is one. It stays unread. -/
def peek? (reader : Reader) : Option Char := reader.rest.head?

/-- Take the next character. At the end of the text nothing is taken and nothing moves. -/
def next? (reader : Reader) : Option Char × Reader :=
  match reader.rest with
  | [] => (none, reader)
  | c :: rest => (some c, ⟨reader.location.after c, rest⟩)

end Reader

/-- A text that is read from a stream. -/
structure Buffer where
  /-- The place of the next character, which may be held. -/
  location : Location
  /-- What has not been taken from the stream. -/
  stream : List Char
  /-- A character that was taken from the stream to be looked at. -/
  held : Option Char := none
deriving DecidableEq, Repr

namespace Buffer

/-- A buffer at the first character of `text`, with nothing held. -/
def ofString (name text : String) : Buffer := { location := .start name, stream := text.toList }

/-- The next character, if there is one. It is held from now on, and the place stays. -/
def peek? (buffer : Buffer) : Option Char × Buffer :=
  match buffer.held with
  | some c => (some c, buffer)
  | none =>
      let next := buffer.stream.head?
      (next, { buffer with stream := buffer.stream.tail, held := next })

/-- Take the next character: the one that is held, or else one from the stream. -/
def next? (buffer : Buffer) : Option Char × Buffer :=
  let (next, stream) :=
    match buffer.held with
    | some c => (some c, buffer.stream)
    | none => (buffer.stream.head?, buffer.stream.tail)
  let location :=
    match next with
    | some c => buffer.location.after c
    | none => buffer.location
  (next, { location, stream })

end Buffer

end LiveStack
