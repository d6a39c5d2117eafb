/-!
# Quoted strings

A string is written in source text between double quotes. A quote, a backslash, a line feed, a
carriage return and a tab are written with a backslash. Reading is more generous than writing: a
backslash before any other character stands for that character, and line feeds may stand as they
are.
-/

namespace LiveStack.Text.Quoted

/-- How a character is written inside quotes. -/
def encodeChar : Char → List Char
  | '"' => ['\\', '"']
  | '\n' => ['\\', 'n']
  | '\r' => ['\\', 'r']
  | '\t' => ['\\', 't']
  | '\\' => ['\\', '\\']
  | c => [c]

/-- What a backslash and the character `c` stand for. -/
def escaped : Char → Char
  | 'n' => '\n'
  | 'r' => '\r'
  | 't' => '\t'
  | c => c

/-- Read the characters between the quotes. -/
def decodeBody : List Char → List Char
  | [] => []
  | ['\\'] => ['\\']
  | '\\' :: c :: rest => escaped c :: decodeBody rest
  | c :: rest => c :: decodeBody rest

/-- The text as a string of source text. -/
def encode (text : String) : String :=
  String.ofList ('"' :: (text.toList.flatMap encodeChar ++ ['"']))

/-- The characters between the quotes of a complete quoted string: the last quote must not be
escaped, so an even number of backslashes stands before it. -/
def body? (chars : List Char) : Option (List Char) :=
  match chars with
  | '"' :: rest =>
      match rest.reverse with
      | '"' :: inside =>
          if (inside.takeWhile (· = '\\')).length % 2 = 0 then some inside.reverse else none
      | _ => none
  | _ => none

/-- Read a quoted string, if that is what the text is. -/
def decode? (text : String) : Option String :=
  (body? text.toList).map fun body => String.ofList (decodeBody body)

end LiveStack.Text.Quoted
