/-!
# The words that are built in

A `Primitive` is one of the words that the language is made of; everything else is defined from
them in source text. Most are an `Operation`: they take values and give values, and nothing else.
The rest run code, or use the dictionary or the host.
-/

namespace LiveStack

/-- A built-in word that is a function of the values it takes. -/
inductive Operation where
  | dup | drop | choose
  | add | subtract | multiply | divide | modulo
  | equal | less | greater | lessEqual | greaterEqual
  | not | and | or | xor
  | length | cons | snoc | range
deriving DecidableEq, Repr

/-- A built-in word. There are no others: a program that has the language inside can hand in words
of its own, as functions that are given the machine, and those are not described. -/
inductive Primitive where
  | operation (op : Operation)
  /-- Run a quotation with the value under it set aside. -/
  | dip
  | map | filter | fold
  /-- List the dictionary. -/
  | words
  | define
  /-- Run a string or a list as code. -/
  | eval
  /-- Show a value to the user. -/
  | alert
  /-- Run code that the host holds under a name. -/
  | use
deriving DecidableEq, Repr

/-- How a built-in word is presented. -/
structure Primitive.Info where
  name : String
  /-- The number of values it takes. -/
  arity : Nat
  description : String
  signature : String
deriving DecidableEq, Repr

/-- How an operation is presented. -/
def Operation.info : Operation → Primitive.Info
  | .dup => ⟨"dup", 1, "Duplicate the top value on the data stack.", "value -- value value"⟩
  | .drop => ⟨"drop", 1, "Discard the top value on the data stack.", "value -- "⟩
  | .choose => ⟨"?", 3, "Choose between two values by a condition.",
      "condition when-true when-false -- chosen"⟩
  | .add => ⟨"+", 2, "Add two numbers or join two strings.", "a b -- result"⟩
  | .subtract => ⟨"-", 2, "Subtract b from a.", "a b -- result"⟩
  | .multiply => ⟨"*", 2, "Multiply two numbers.", "a b -- result"⟩
  | .divide => ⟨"/", 2, "Divide a by b.", "a b -- result"⟩
  | .modulo => ⟨"mod", 2, "Remainder of a divided by b.", "a b -- remainder"⟩
  | .equal => ⟨"=", 2, "Are the two values equal?", "a b -- bool"⟩
  | .less => ⟨"<", 2, "Is a less than b?", "a b -- bool"⟩
  | .greater => ⟨">", 2, "Is a greater than b?", "a b -- bool"⟩
  | .lessEqual => ⟨"<=", 2, "Is a less than or equal to b?", "a b -- bool"⟩
  | .greaterEqual => ⟨">=", 2, "Is a greater than or equal to b?", "a b -- bool"⟩
  | .not => ⟨"not", 1, "Logically invert a value.", "value -- bool"⟩
  | .and => ⟨"and", 2, "Are both values true?", "a b -- bool"⟩
  | .or => ⟨"or", 2, "Is either value true?", "a b -- bool"⟩
  | .xor => ⟨"xor", 2, "Is exactly one of the values true?", "a b -- bool"⟩
  | .length => ⟨"length", 1, "The number of items in a list or characters in a string.",
      "list-or-string -- count"⟩
  | .cons => ⟨"cons", 2, "Add a value to the front of a list.", "value list -- list"⟩
  | .snoc => ⟨"snoc", 1, "Split a list into its first value and the rest.", "list -- head tail"⟩
  | .range => ⟨"range", 2, "The integers from low up to high, inclusive.", "high low -- list"⟩

namespace Primitive

/-- How a built-in word is presented. -/
def info : Primitive → Info
  | .operation op => op.info
  | .dip => ⟨"dip", 2,
      "Run a quotation with the value under it set aside, then restore the value.",
      "x quotation -- ... x"⟩
  | .map => ⟨"map", 2, "Transform each value of a list with a quotation.",
      "list quotation -- list"⟩
  | .filter => ⟨"filter", 2, "Keep the values of a list a quotation finds true.",
      "list quotation -- list"⟩
  | .fold => ⟨"fold", 3, "Combine the values of a list into an accumulator.",
      "list initial quotation -- result"⟩
  | .words => ⟨"words", 0, "Get a list of all the defined words.", " -- list"⟩
  | .define => ⟨"define", 2, "Install a quotation as a word with the given name.",
      "quotation name -- "⟩
  | .eval => ⟨"eval", 1, "Run source text or a list as code.", "source -- ..."⟩
  | .alert => ⟨"alert", 1, "Show a value to the user.", "value -- "⟩
  | .use => ⟨"use", 1, "Load and run named code supplied by the host.", "name -- ..."⟩

/-- The name of the word. -/
def name (primitive : Primitive) : String := primitive.info.name

/-- The number of values the word takes. -/
def arity (primitive : Primitive) : Nat := primitive.info.arity

/-- All built-in words, in the order a new dictionary gets them. -/
def all : List Primitive :=
  [.operation .dup, .operation .drop, .dip, .operation .choose,
    .operation .add, .operation .subtract, .operation .multiply, .operation .divide,
    .operation .modulo, .operation .equal, .operation .less, .operation .greater,
    .operation .lessEqual, .operation .greaterEqual, .operation .not, .operation .and,
    .operation .or, .operation .xor, .operation .length, .operation .cons, .operation .snoc,
    .operation .range, .map, .filter, .fold, .words, .define, .eval, .alert, .use]

/-- No built-in word is left out. -/
theorem mem_all (primitive : Primitive) : primitive ∈ all := by
  cases primitive with
  | operation op => cases op <;> decide
  | _ => decide

end Primitive

end LiveStack
