import LiveStack.Code
import LiveStack.Literal
import LiveStack.Token

/-!
# Reading code

Tokens become code in one pass. Each word is bound to its meaning when it is met. A closing
bracket with nothing to close is dropped and reported; lists that the text leaves open are closed
at its end.
-/

namespace LiveStack

/-- What the names mean while code is read. -/
abbrev Binding := String → Option Word

/-- The meaning of a token that is no bracket: a word before a literal, and nothing if it is
neither. -/
def Element.ofToken (binding : Binding) (text : String) : Element :=
  match binding text with
  | some bound => .word bound
  | none =>
      match Literal.read? text with
      | some value => .literal text value
      | none => .unknown text

namespace Code

/-- A list begun but not closed: where its bracket is, and what came before it in the list around
it, last one first. -/
structure OpenList where
  bracket : Location
  before : List Instruction

/-- A parser between two tokens. `items` are the instructions of the innermost list, last one
first, and `outer` the open lists, innermost first. -/
structure Parser where
  items : List Instruction := []
  outer : List OpenList := []
  faults : List Fault := []

namespace Parser

/-- Close the innermost list. -/
def close (parser : Parser) (list : OpenList) (outer : List OpenList) : Parser :=
  { parser with
    items := ⟨some list.bracket, .quote parser.items.reverse⟩ :: list.before
    outer := outer }

/-- Take one token. -/
def step (binding : Binding) (parser : Parser) (token : Token) : Parser :=
  match token.lexeme with
  | .opening =>
      { parser with items := [], outer := ⟨token.location, parser.items⟩ :: parser.outer }
  | .closing =>
      match parser.outer with
      | list :: outer => parser.close list outer
      | [] =>
          { parser with faults := .reading token.location .unbalancedClose :: parser.faults }
  | .string text | .word text =>
      { parser with items := ⟨some token.location, .ofToken binding text⟩ :: parser.items }

/-- The end of the tokens closes all lists. -/
def finish (parser : Parser) : Code × List Fault :=
  let closed := parser.outer.foldl
    (fun (items : List Instruction) list =>
      ⟨some list.bracket, .quote items.reverse⟩ :: list.before) parser.items
  (closed.reverse, parser.faults.reverse)

end Parser

/-- The code that tokens stand for, and the closing brackets that close nothing. -/
def ofTokens (binding : Binding) (tokens : List Token) : Code × List Fault :=
  (tokens.foldl (Parser.step binding) {}).finish

/-- The code of the text called `name`, with the problems of its tokens before those of its
brackets. -/
def ofSource (binding : Binding) (name source : String) : Code × List Fault :=
  let (tokens, lexing) := Token.ofSource name source
  let (code, parsing) := ofTokens binding tokens
  (code, lexing ++ parsing)

end Code

end LiveStack
