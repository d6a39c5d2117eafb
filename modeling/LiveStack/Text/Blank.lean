/-!
# Blank characters and lines

The characters that Unicode calls white space, trimming a text of them, and splitting a text into
lines.
-/

namespace LiveStack.Text

/-- The Unicode property `White_Space`. -/
def isBlank (c : Char) : Bool :=
  ('\t' ≤ c && c ≤ '\r') || c == ' ' || c == '\u0085' || c == '\u00a0' || c == '\u1680'
    || ('\u2000' ≤ c && c ≤ '\u200a') || c == '\u2028' || c == '\u2029' || c == '\u202f'
    || c == '\u205f' || c == '\u3000'

/-- The characters without the blank ones at the end. -/
def dropTrailing (chars : List Char) : List Char :=
  (chars.reverse.dropWhile isBlank).reverse

/-- The text without the blanks at its end. -/
def trimEnd (text : String) : String :=
  String.ofList (dropTrailing text.toList)

/-- The text without the blanks at its ends. -/
def trim (text : String) : String :=
  String.ofList (dropTrailing (text.toList.dropWhile isBlank))

/-- Cut before every character `c`, which is dropped. -/
def splitAtEach (c : Char) (chars : List Char) : List (List Char) :=
  let (current, done) := chars.foldl
    (fun (current, done) next =>
      if next = c then ([], current.reverse :: done) else (next :: current, done))
    (([], []) : List Char × List (List Char))
  (current.reverse :: done).reverse

/-- The lines of a text. A line feed, or a carriage return with a line feed, ends a line; what
follows the last one is a line only if there is anything. -/
def lines (text : String) : List String :=
  let pieces := splitAtEach '\n' text.toList
  let (complete, last) := (pieces.dropLast, pieces.getLast?.getD [])
  let uncarried (line : List Char) : List Char :=
    if line.getLast? = some '\r' then line.dropLast else line
  (complete.map uncarried ++ if last.isEmpty then [] else [last]).map String.ofList

end LiveStack.Text
