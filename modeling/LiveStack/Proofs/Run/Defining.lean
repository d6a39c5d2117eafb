import LiveStack.Proofs.Code.Brackets
import LiveStack.Proofs.Run.Words

/-!
# Texts that define a word

A definition is a list, the word's name as a string, and the word `define`. Running it gives the
name its new meaning and changes nothing else but the place that execution has reached.
-/

namespace LiveStack

open Execution Run

/-- The tokens of a definition: what is in the list, and the name. -/
structure Token.Defines (tokens body : List Token) (name : String) : Prop where
  shape : ∃ opening closing quoted ending text,
    tokens = ⟨.opening, opening⟩ :: body ++
      [⟨.closing, closing⟩, ⟨.string text, quoted⟩, ⟨.word "define", ending⟩] ∧
    Text.Quoted.decode? text = some name
  closed : Token.Closed body
  valid : nameProblem? name = none

/-- What is a quoted string begins with a quote. -/
theorem Text.Quoted.head?_of_decode? {text decoded : String}
    (reads : Text.Quoted.decode? text = some decoded) : text.toList.head? = some '"' := by
  obtain ⟨body, inside, -⟩ := Option.map_eq_some_iff.1 reads
  cases chars : text.toList with
  | nil => simp [chars, Text.Quoted.body?] at inside
  | cons first rest =>
      rw [chars, Text.Quoted.body?.eq_def] at inside
      split at inside
      · next same => cases same; rfl
      · cases inside

/-- A quoted string that is no word stands for what is quoted. -/
theorem Element.ofToken_of_decode? {binding : Binding} {text decoded : String}
    (unbound : binding text = none) (reads : Text.Quoted.decode? text = some decoded) :
    Element.ofToken binding text = .literal text (.string decoded) := by
  have starts := Text.Quoted.head?_of_decode? reads
  have noTrue : text ≠ "true" := by
    rintro rfl
    exact absurd starts (by decide)
  have noFalse : text ≠ "false" := by
    rintro rfl
    exact absurd starts (by decide)
  rw [Element.ofToken, unbound]
  simp only [Literal.read?, if_neg noTrue, if_neg noFalse, reads]

namespace Machine

/-- The word `define` means what it is built in to mean. -/
def Defining (machine : Machine) : Prop :=
  machine.bind Primitive.define.name = some ⟨Primitive.define.name, .primitive .define⟩

/-- The code of a definition: a list, a string, and the word `define`. -/
theorem code_of_defines {machine : Machine} (orderly : machine.Orderly)
    (defining : machine.Defining) {tokens body : List Token} {name : String}
    (defines : Token.Defines tokens body name) :
    ∃ opening quoted ending text, Code.ofTokens machine.bind tokens =
      ([⟨some opening, .quote (Code.ofTokens machine.bind body).1⟩,
        ⟨some quoted, .literal text (.string name)⟩,
        ⟨some ending, .word ⟨Primitive.define.name, .primitive .define⟩⟩], []) := by
  obtain ⟨⟨opening, closing, quoted, ending, text, rfl, reads⟩, closed, -⟩ := defines
  refine ⟨opening, quoted, ending, text, ?_⟩
  have string := Element.ofToken_of_decode?
    (orderly.bind_quoted (Text.Quoted.head?_of_decode? reads)) reads
  have word : Element.ofToken machine.bind "define" =
      .word ⟨Primitive.define.name, .primitive .define⟩ := by
    rw [Element.ofToken, show machine.bind "define" = _ from defining]
  rw [Code.ofTokens, List.cons_append, List.foldl_cons, List.foldl_append]
  show (List.foldl _ (body.foldl (Code.Parser.step machine.bind)
    ⟨[], [⟨opening, []⟩], []⟩) _).finish = _
  rw [Code.foldl_step_of_closed closed]
  simp [Code.Parser.step, Code.Parser.close, Code.Parser.finish, string, word]

/-- The execution of a definition has a list, a string and a word before it. -/
theorem ofSource_of_defines {machine : Machine} (orderly : machine.Orderly)
    (defining : machine.Defining) {source text name : String} {tokens body : List Token}
    (lexed : Token.ofSource text source = (tokens, []))
    (defines : Token.Defines tokens body name) :
    ∃ opening quoted ending written, ofSource machine text source = ⟨machine,
      [.code [⟨some opening, .quote (Code.ofTokens machine.bind body).1⟩,
        ⟨some quoted, .literal written (.string name)⟩,
        ⟨some ending, .word ⟨Primitive.define.name, .primitive .define⟩⟩]], none⟩ := by
  obtain ⟨opening, quoted, ending, written, code⟩ := code_of_defines orderly defining defines
  exact ⟨opening, quoted, ending, written, by
    simp [ofSource, Execution.read, Code.ofSource, lexed, code]⟩

/-- Running a definition defines its word, at the place of its last token. -/
theorem runSource_defines {machine : Machine} (orderly : machine.Orderly)
    (defining : machine.Defining) (room : machine.calls.length < machine.limit)
    {source text name : String} {tokens body : List Token}
    (lexed : Token.ofSource text source = (tokens, []))
    (defines : Token.Defines tokens body name) :
    ∃ place, machine.runSource text source =
      .ok () (define { machine with location := some place } name
        (Code.ofTokens machine.bind body).1) := by
  obtain ⟨opening, quoted, ending, written, start⟩ :=
    ofSource_of_defines orderly defining lexed defines
  refine ⟨ending, (endsIn_runSource machine text source).unique (endsIn_of_leads ⟨5, ?_⟩)⟩
  have enough : ¬ machine.limit ≤ machine.calls.length := Nat.not_le.2 room
  have arity : Primitive.define.arity = 2 := rfl
  rw [start]
  simp [after, step, follow, enter, enough, begin, check, arguments, arity, split?, Primitive.work,
    perform, Value.asList, Value.asString, defines.valid, settle, define, addWord]

/-- Where there is no room for a call, a definition fails. -/
theorem runSource_defines_of_full {machine : Machine} (orderly : machine.Orderly)
    (defining : machine.Defining) (full : machine.limit ≤ machine.calls.length)
    {source text name : String} {tokens body : List Token}
    (lexed : Token.ofSource text source = (tokens, []))
    (defines : Token.Defines tokens body name) :
    ∃ fault last, machine.runSource text source = .error fault last := by
  obtain ⟨opening, quoted, ending, written, start⟩ :=
    ofSource_of_defines orderly defining lexed defines
  obtain ⟨stopped, more, led⟩ : ∃ stopped more,
      after (ofSource machine text source) 4 = settle (.error stopped more) [] := by
    rw [start]
    simp [after, step, follow, enter, full, settle]
  exact ⟨stopped, more, (endsIn_runSource machine text source).unique (endsIn_of_leads ⟨4, led⟩)⟩

end Machine

end LiveStack
