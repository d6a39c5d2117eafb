import LiveStack.Fault
import LiveStack.Reader

/-!
# Tokens

Source text splits into brackets, strings and words. A bracket is always a token of its own. A
quote where a token may begin opens a string, which runs to the next quote that no backslash
escapes; anything else runs to the next blank or bracket. A token says nothing yet about meaning:
whether `12` is a number or a word is decided against the dictionary.

Lexing never fails. A string that the text ends inside of is dropped and reported.
-/

namespace LiveStack

/-- The text of a token. Strings keep their quotes and escapes as written. -/
inductive Lexeme where
  | opening
  | closing
  | string (text : String)
  | word (text : String)
deriving DecidableEq, Repr

/-- The characters of a token, as written. -/
def Lexeme.text : Lexeme → String
  | .opening => "["
  | .closing => "]"
  | .string text => text
  | .word text => text

/-- A lexeme and the place of its first character. -/
structure Token where
  lexeme : Lexeme
  location : Location
deriving DecidableEq, Repr

namespace Token

/-- The blanks that separate tokens: space, tab, carriage return, line feed and form feed. -/
def isBlank (c : Char) : Bool :=
  c == ' ' || c == '\t' || c == '\r' || c == '\n' || c == '\x0c'

/-- The characters that end a word: blanks and brackets. -/
def isBreak (c : Char) : Bool :=
  isBlank c || c == '[' || c == ']'

/-- The token begun but not yet ended. Its characters are held last one first. -/
inductive Pending where
  | nothing
  | word (start : Location) (chars : List Char)
  | string (start : Location) (chars : List Char) (escaped : Bool)
deriving DecidableEq, Repr

/-- A lexer between two characters: the place of the next one, the token begun, and the tokens
found so far, last one first. -/
structure Lexer where
  here : Location
  pending : Pending := .nothing
  found : List Token := []
deriving DecidableEq, Repr

namespace Lexer

/-- The text of characters held last one first. -/
def textOf (chars : List Char) : String := String.ofList chars.reverse

/-- Take a break character, with `found` complete up to it. -/
def breakAt (here : Location) (found : List Token) (c : Char) : Lexer :=
  let found :=
    if c = '[' then ⟨.opening, here⟩ :: found
    else if c = ']' then ⟨.closing, here⟩ :: found
    else found
  ⟨here.after c, .nothing, found⟩

/-- Take one character. -/
def step (lexer : Lexer) (c : Char) : Lexer :=
  let ⟨here, pending, found⟩ := lexer
  let next := here.after c
  match pending with
  | .nothing =>
      if isBreak c then breakAt here found c
      else if c = '"' then ⟨next, .string here [c] false, found⟩
      else ⟨next, .word here [c], found⟩
  | .word start chars =>
      if isBreak c then breakAt here (⟨.word (textOf chars), start⟩ :: found) c
      else ⟨next, .word start (c :: chars), found⟩
  | .string start chars escaped =>
      if escaped then ⟨next, .string start (c :: chars) false, found⟩
      else if c = '\\' then ⟨next, .string start (c :: chars) true, found⟩
      else if c = '"' then ⟨next, .nothing, ⟨.string (textOf (c :: chars)), start⟩ :: found⟩
      else ⟨next, .string start (c :: chars) false, found⟩

/-- The end of the text ends a word and breaks off a string. -/
def finish (lexer : Lexer) : List Token × List Fault :=
  match lexer.pending with
  | .nothing => (lexer.found.reverse, [])
  | .word start chars => ((⟨.word (textOf chars), start⟩ :: lexer.found).reverse, [])
  | .string start chars _ =>
      (lexer.found.reverse, [.reading start (.unterminatedString (textOf chars))])

end Lexer

/-- The tokens of the rest of a text, and the string that is cut off by its end, if any. -/
def scan (reader : Reader) : List Token × List Fault :=
  let start : Lexer := { here := reader.location }
  (reader.rest.foldl Lexer.step start).finish

/-- The tokens of the text called `name`. -/
def ofSource (name source : String) : List Token × List Fault :=
  scan (.ofString name source)

end Token

/-- Why a text can't name a word, or `none` if it can: a name is what lexes as one word. -/
def nameProblem? (name : String) : Option String :=
  if name.isEmpty then some "the name is empty"
  else if name.toList.head? = some '"' then some "the name would read as a string"
  else if name.toList.any Token.isBreak then some "the name contains whitespace or brackets"
  else none

end LiveStack
