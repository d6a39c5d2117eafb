import LiveStack.Prelude
import LiveStack.Proofs.Code.Reading
import LiveStack.Proofs.Run.Defining

/-!
# What the words of the prelude are

Here the prelude stands as a table: the words that it defines, and of each the items of its body. A
word of a machine is that of the table if its body is what these items say, each of their own words
being that of the table again. The lines of the prelude spell the table out, and each uses no word
but those above it. So in every machine that the prelude was loaded into, the names mean the words
of the table.
-/

namespace LiveStack

open Execution Run

/-- No two built-in words have the same name. -/
theorem Primitive.name_injective {primitive other : Primitive}
    (same : primitive.name = other.name) : primitive = other := by
  have all : ∀ primitive ∈ all, ∀ other ∈ all, primitive.name = other.name → primitive = other := by
    decide +kernel
  exact all primitive (mem_all primitive) other (mem_all other) same

namespace Prelude

/-! ## The table -/

/-- The names of the words in the prelude. -/
def names : List String :=
  ["apply", "swap", "if", "when", "unless", "square", "prod", "factorial", "sum", "2drop",
    "3drop", "neg", "abs", "nip", "2nip", "over", "2dup", "pick", "3dup", "dupd", "swapd", "rot",
    "-rot", "2dip", "3dip", "4dip", "keep", "2keep", "3keep", "bi", "average", "2bi", "3bi",
    "tri", "2tri", "3tri", "bi*", "2bi*", "tri*", "2tri*", "bi@", "2bi@", "tri@", "2tri@",
    "both?", "either?"]

/-- A word that the prelude defines. -/
inductive Derived where
  | apply | swap | branch | when | unless
  | square | prod | factorial | sum
  | drop2 | drop3 | neg | abs
  | nip | nip2 | overTop | dup2 | pick | dup3 | dupd | swapd | rot | rotBack
  | dip2 | dip3 | dip4 | keep | keep2 | keep3
  | bi | average | bi2 | bi3 | tri | tri2 | tri3
  | biSpread | bi2Spread | triSpread | tri2Spread
  | biApply | bi2Apply | triApply | tri2Apply
  | both | either
deriving DecidableEq, Repr

/-- A token in the body of a word, or a list of them. -/
inductive Item where
  | primitive (primitive : Primitive)
  | word (word : Derived)
  | literal (text : String)
  | list (items : List Item)

/-- The word for an operation. -/
abbrev Item.op (op : Operation) : Item := .primitive (.operation op)

/-- The word that all combinators rest on. -/
abbrev Item.dip : Item := .primitive .dip

namespace Derived

/-- The name of a word, and its body. -/
def definition : Derived → String × List Item
  | .apply => ("apply", [.op .dup, .dip, .op .drop])
  | .swap => ("swap", [.list [], .op .cons, .dip])
  | .branch => ("if", [.op .choose, .word .apply])
  | .when => ("when", [.list [], .word .branch])
  | .unless => ("unless", [.list [], .word .swap, .word .branch])
  | .square => ("square", [.op .dup, .op .multiply])
  | .prod => ("prod", [.literal "1", .list [.op .multiply], .primitive .fold])
  | .factorial => ("factorial", [.literal "1", .op .range, .word .prod])
  | .sum => ("sum", [.literal "0", .list [.op .add], .primitive .fold])
  | .drop2 => ("2drop", [.op .drop, .op .drop])
  | .drop3 => ("3drop", [.op .drop, .op .drop, .op .drop])
  | .neg => ("neg", [.literal "0", .word .swap, .op .subtract])
  | .abs => ("abs", [.op .dup, .literal "0", .op .less, .list [.word .neg], .word .when])
  | .nip => ("nip", [.word .swap, .op .drop])
  | .nip2 => ("2nip", [.list [.word .drop2], .dip])
  | .overTop => ("over", [.list [.op .dup], .dip, .word .swap])
  | .dup2 => ("2dup", [.word .overTop, .word .overTop])
  | .pick => ("pick", [.list [.word .overTop], .dip, .word .swap])
  | .dup3 => ("3dup", [.word .pick, .word .pick, .word .pick])
  | .dupd => ("dupd", [.list [.op .dup], .dip])
  | .swapd => ("swapd", [.list [.word .swap], .dip])
  | .rot => ("rot", [.word .swapd, .word .swap])
  | .rotBack => ("-rot", [.word .rot, .word .rot])
  | .dip2 => ("2dip", [.word .swap, .list [.dip], .dip])
  | .dip3 => ("3dip", [.word .swap, .list [.word .dip2], .dip])
  | .dip4 => ("4dip", [.word .swap, .list [.word .dip3], .dip])
  | .keep => ("keep", [.word .dupd, .dip])
  | .keep2 => ("2keep", [.list [.word .dup2], .dip, .word .dip2])
  | .keep3 => ("3keep", [.list [.word .dup3], .dip, .word .dip3])
  | .bi => ("bi", [.list [.word .keep], .dip, .word .apply])
  | .average => ("average", [.list [.word .sum], .list [.op .length], .word .bi, .op .divide])
  | .bi2 => ("2bi", [.list [.word .keep2], .dip, .word .apply])
  | .bi3 => ("3bi", [.list [.word .keep3], .dip, .word .apply])
  | .tri => ("tri", [.list [.word .keep], .word .dip2, .list [.word .keep], .dip, .word .apply])
  | .tri2 =>
      ("2tri", [.list [.word .keep2], .word .dip2, .list [.word .keep2], .dip, .word .apply])
  | .tri3 =>
      ("3tri", [.list [.word .keep3], .word .dip2, .list [.word .keep3], .dip, .word .apply])
  | .biSpread => ("bi*", [.list [.dip], .dip, .word .apply])
  | .bi2Spread => ("2bi*", [.list [.word .dip2], .dip, .word .apply])
  | .triSpread => ("tri*", [.list [.word .dip2], .word .dip2, .list [.dip], .dip, .word .apply])
  | .tri2Spread =>
      ("2tri*", [.list [.word .dip4], .word .dip2, .list [.word .dip2], .dip, .word .apply])
  | .biApply => ("bi@", [.op .dup, .word .dip2, .word .apply])
  | .bi2Apply => ("2bi@", [.op .dup, .word .dip3, .word .apply])
  | .triApply => ("tri@", [.op .dup, .word .dip3, .op .dup, .word .dip2, .word .apply])
  | .tri2Apply => ("2tri@", [.op .dup, .word .dip4, .word .apply])
  | .both => ("both?", [.word .biApply, .op .and])
  | .either => ("either?", [.word .biApply, .op .or])

/-- The name of a word. -/
def name (word : Derived) : String := word.definition.1

/-- The items of a word's body. -/
def body (word : Derived) : List Item := word.definition.2

/-- All words, in the order of the lines that define them. -/
def all : List Derived :=
  [.apply, .swap, .branch, .when, .unless, .square, .prod, .factorial, .sum, .drop2, .drop3, .neg,
    .abs, .nip, .nip2, .overTop, .dup2, .pick, .dup3, .dupd, .swapd, .rot, .rotBack, .dip2, .dip3,
    .dip4, .keep, .keep2, .keep3, .bi, .average, .bi2, .bi3, .tri, .tri2, .tri3, .biSpread,
    .bi2Spread, .triSpread, .tri2Spread, .biApply, .bi2Apply, .triApply, .tri2Apply, .both,
    .either]

theorem mem_all (word : Derived) : word ∈ all := by
  cases word <;> decide

theorem name_mem (word : Derived) : word.name ∈ names := by
  have names_eq : names = all.map name := rfl
  rw [names_eq]
  exact List.mem_map_of_mem (mem_all word)

/-- No two words have the same name. -/
theorem name_injective {word other : Derived} (same : word.name = other.name) : word = other := by
  have all : ∀ word ∈ all, ∀ other ∈ all, word.name = other.name → word = other := by
    decide +kernel
  exact all word (mem_all word) other (mem_all other) same

/-- No word has the name of a built-in one. -/
theorem name_ne (word : Derived) (primitive : Primitive) : word.name ≠ primitive.name := by
  have all : ∀ word ∈ all, ∀ primitive ∈ Primitive.all, word.name ≠ primitive.name := by
    decide +kernel
  exact all word (mem_all word) primitive (Primitive.mem_all primitive)

end Derived

/-! ## Items as tokens and as code -/

namespace Item

/-- The name of a word. -/
def name? : Item → Option String
  | .primitive builtIn => some builtIn.name
  | .word derived => some derived.name
  | .literal _ | .list _ => none

mutual

/-- The tokens of an item. -/
def lexemes : Item → List Lexeme
  | .primitive builtIn => [.word builtIn.name]
  | .word derived => [.word derived.name]
  | .literal text => [.word text]
  | .list items => .opening :: (lexemesAll items ++ [.closing])

/-- The tokens of items, one item behind the other. -/
def lexemesAll : List Item → List Lexeme
  | [] => []
  | item :: rest => lexemes item ++ lexemesAll rest

end

mutual

theorem paired_lexemes (item : Item) : Token.Paired item.lexemes := by
  match item with
  | .primitive builtIn => exact .word _
  | .word derived => exact .word _
  | .literal text => exact .word _
  | .list items => exact (paired_lexemesAll items).list

theorem paired_lexemesAll (items : List Item) : Token.Paired (lexemesAll items) := by
  match items with
  | [] => exact .nil
  | item :: rest => exact (paired_lexemes item).append (paired_lexemesAll rest)

end

mutual

/-- The element does what the item says: it calls the word of the table, whose body does what the
items of the table say, or it pushes what is written. -/
inductive Is : Item → Element → Prop
  | primitive (primitive : Primitive) :
      Is (.primitive primitive) (.word ⟨primitive.name, .primitive primitive⟩)
  | word {word : Derived} {body : Code} (reads : Reads word.body body) :
      Is (.word word) (.word ⟨word.name, .secondary body⟩)
  | literal {text : String} {value : Value} (reads : Literal.read? text = some value) :
      Is (.literal text) (.literal text value)
  | list {items : List Item} {code : Code} (reads : Reads items code) :
      Is (.list items) (.quote code)

/-- The code does what the items say, one by one, at whatever places. -/
inductive Reads : List Item → Code → Prop
  | nil : Reads [] []
  | cons {item : Item} {element : Element} {items : List Item} {code : Code}
      (place : Option Location) (is : Is item element) (reads : Reads items code) :
      Reads (item :: items) (⟨place, element⟩ :: code)

end

theorem Reads.append {items items' : List Item} {code code' : Code} (reads : Reads items code)
    (reads' : Reads items' code') : Reads (items ++ items') (code ++ code') := by
  match reads with
  | .nil => exact reads'
  | .cons place is rest => exact .cons place is (rest.append reads')

theorem Reads.exists_singleton {item : Item} {code : Code} (reads : Reads [item] code) :
    ∃ place element, code = [⟨place, element⟩] ∧ Is item element := by
  cases reads with
  | cons place is rest =>
      cases rest
      exact ⟨place, _, rfl, is⟩

mutual

/-- Whether an item uses these words of the table only, and no literal that has the name of a
word. -/
def uses (known : List Derived) : Item → Bool
  | .primitive _ => true
  | .word derived => known.contains derived
  | .literal text =>
      (Literal.read? text).isSome && !names.contains text &&
        !(Primitive.all.map Primitive.name).contains text
  | .list items => usesAll known items

/-- Whether items use these words only. -/
def usesAll (known : List Derived) : List Item → Bool
  | [] => true
  | item :: rest => uses known item && usesAll known rest

end

end Item

/-! ## Names that mean what the table says -/

/-- The names mean the built-in words, and these words of the table. -/
structure Means (binding : Binding) (known : List Derived) : Prop where
  primitive : ∀ primitive : Primitive,
    binding primitive.name = some ⟨primitive.name, .primitive primitive⟩
  word : ∀ word ∈ known, ∃ body, binding word.name = some ⟨word.name, .secondary body⟩ ∧
    Item.Reads word.body body
  other : ∀ text, text ∉ names → text ∉ Primitive.all.map Primitive.name → binding text = none

namespace Item

variable {binding : Binding} {known : List Derived}

theorem is_of_bound {text : String} {word : Word} {item : Item}
    (bound : binding text = some word) (is : item.Is (.word word)) {tokens : List Token}
    (same : tokens.map (·.lexeme) = [.word text]) :
    Reads [item] (Code.ofTokens binding tokens).1 := by
  obtain ⟨⟨lexeme, place⟩, rest, rfl, rfl, none⟩ := List.map_eq_cons_iff.1 same
  rw [List.map_eq_nil_iff.1 none, Code.ofTokens_word bound]
  exact .cons place is .nil

mutual

/-- The tokens of an item that uses known words are read as what the item says. -/
theorem reads_lexemes (means : Means binding known) (item : Item)
    (used : item.uses known = true) {tokens : List Token}
    (same : tokens.map (·.lexeme) = item.lexemes) :
    Reads [item] (Code.ofTokens binding tokens).1 := by
  -- By the structure of the item: what a list has inside is read as a whole, between its brackets.
  match item with
  | .primitive builtIn => exact is_of_bound (means.primitive builtIn) (.primitive builtIn) same
  | .word derived =>
      obtain ⟨body, bound, reads⟩ := means.word derived (List.contains_iff_mem.1 used)
      exact is_of_bound bound (.word reads) same
  | .literal text =>
      simp only [uses, Bool.and_eq_true, Bool.not_eq_true', List.contains_eq_mem,
        decide_eq_false_iff_not] at used
      obtain ⟨⟨readable, other⟩, other'⟩ := used
      obtain ⟨value, read⟩ := Option.isSome_iff_exists.1 readable
      obtain ⟨⟨lexeme, place⟩, rest, rfl, rfl, none⟩ := List.map_eq_cons_iff.1 same
      rw [List.map_eq_nil_iff.1 none]
      have element : Element.ofToken binding text = .literal text value := by
        rw [Element.ofToken, means.other text other other', read]
      have code : (Code.ofTokens binding [⟨.word text, place⟩]).1 =
          [⟨some place, .ofToken binding text⟩] := rfl
      rw [code, element]
      exact .cons place (.literal read) .nil
  | .list items =>
      obtain ⟨⟨lexeme, place⟩, rest, rfl, rfl, rests⟩ := List.map_eq_cons_iff.1 same
      obtain ⟨inside, last, rfl, insides, ends⟩ := List.map_eq_append_iff.1 rests
      obtain ⟨⟨lexeme', place'⟩, beyond, rfl, rfl, none⟩ := List.map_eq_cons_iff.1 ends
      rw [List.map_eq_nil_iff.1 none,
        Code.ofTokens_list ((paired_lexemesAll items).closed insides)]
      exact .cons place (.list (reads_lexemesAll means items used insides)) .nil

theorem reads_lexemesAll (means : Means binding known)
    (items : List Item) (used : usesAll known items = true) {tokens : List Token}
    (same : tokens.map (·.lexeme) = lexemesAll items) :
    Reads items (Code.ofTokens binding tokens).1 := by
  match items with
  | [] =>
      rw [List.map_eq_nil_iff.1 same]
      exact .nil
  | item :: rest =>
      obtain ⟨used, used'⟩ := Bool.and_eq_true_iff.1 used
      obtain ⟨front, back, rfl, same, same'⟩ := List.map_eq_append_iff.1 same
      rw [Code.ofTokens_append ((paired_lexemes item).closed same).ended]
      exact (reads_lexemes means item used same).append
        (reads_lexemesAll means rest used' same')

end

end Item

/-! ## The lines of the prelude -/

namespace Derived

/-- The tokens of the line that defines a word. -/
def lexemes (word : Derived) : List Lexeme :=
  .opening :: (Item.lexemesAll word.body ++
    [.closing, .string (Text.Quoted.encode word.name), .word Primitive.define.name])

/-- A line of the prelude, by its characters, defines the word. -/
def IsIn (word : Derived) (chars : List Char) : Prop :=
  (Token.scan ⟨.start sourceName, chars⟩).2 = [] ∧
    (Token.scan ⟨.start sourceName, chars⟩).1.map (·.lexeme) = word.lexemes

instance (word : Derived) (chars : List Char) : Decidable (word.IsIn chars) :=
  inferInstanceAs (Decidable (_ ∧ _))

theorem isIn_ofList {word : Derived} {chars : List Char} (line : word.IsIn chars) :
    word.IsIn (String.ofList chars).toList :=
  String.toList_ofList.symm ▸ line

/-- The lines of the prelude define the words of the table, in this order. -/
theorem isIn_definitions :
    List.Forall₂ (fun word line => word.IsIn line.toList) all definitions := by
  rw [all, definitions]
  repeat refine .cons (isIn_ofList (by decide +kernel)) ?_
  exact .nil

theorem nameProblem?_name (word : Derived) : nameProblem? word.name = none := by
  have all : ∀ word ∈ all, nameProblem? word.name = none := by decide +kernel
  exact all word (mem_all word)

theorem IsIn.defines {word : Derived} {line : String} (isIn : word.IsIn line.toList) :
    ∃ tokens body, Token.ofSource sourceName line = (tokens, []) ∧
      body.map (·.lexeme) = Item.lexemesAll word.body ∧ Token.Defines tokens body word.name := by
  obtain ⟨lexing, lexemes⟩ := isIn
  obtain ⟨⟨lexeme, opening⟩, rest, split, rfl, rests⟩ := List.map_eq_cons_iff.1 lexemes
  obtain ⟨body, ending, rfl, bodies, ends⟩ := List.map_eq_append_iff.1 rests
  obtain ⟨⟨_, closing⟩, _, rfl, rfl, names⟩ := List.map_eq_cons_iff.1 ends
  obtain ⟨⟨_, quoted⟩, _, rfl, rfl, words⟩ := List.map_eq_cons_iff.1 names
  obtain ⟨⟨_, last⟩, _, rfl, rfl, none⟩ := List.map_eq_cons_iff.1 words
  obtain rfl := List.map_eq_nil_iff.1 none
  refine ⟨_, body, Prod.ext split lexing, bodies,
    ⟨opening, closing, quoted, last, _, rfl, Text.Quoted.decode?_encode word.name⟩, ?_,
    word.nameProblem?_name⟩
  exact (Item.paired_lexemesAll word.body).closed bodies

end Derived

/-- Whether every word uses no other words than these and those in front of it. -/
def ordered (known : List Derived) : List Derived → Bool
  | [] => true
  | word :: rest => Item.usesAll known word.body && ordered (word :: known) rest

theorem ordered_all : ordered [] Derived.all = true := by
  decide +kernel

end Prelude

end LiveStack
