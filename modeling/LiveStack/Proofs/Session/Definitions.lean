import LiveStack.Proofs.Code.Reading
import LiveStack.Proofs.Session.Standing

/-!
# The text that makes a word

To make a word of a text is to run another text: the first one in brackets, the name as a string,
and the word `define`. What that does depends on what `define` means at the time. As long as it is
the built-in word, a text that is made of whole tokens, with its brackets in pairs, becomes the body
of the word, and nothing else happens.
-/

namespace LiveStack

/-- The text is made of whole tokens, and closes every list that it opens, and no other. -/
def Token.SelfContained (text : String) : Prop :=
  (Token.ofSource "" text).2 = [] ∧ Token.Closed (Token.ofSource "" text).1

instance (text : String) : Decidable (Token.SelfContained text) :=
  inferInstanceAs (Decidable (_ ∧ _))

namespace Session

open Machine

variable {name selected : String}

/-- A self-contained text becomes the list of a definition. -/
theorem exists_definition (contained : Token.SelfContained selected)
    (valid : nameProblem? name = none) (source : String) :
    ∃ tokens body, Token.ofSource source (definitionOf name selected) = (tokens, []) ∧
      body.map (·.lexeme) = (Token.ofSource "" selected).1.map (·.lexeme) ∧
      Token.Defines tokens body name := by
  obtain ⟨whole, closed⟩ := contained
  have written : definitionOf name selected =
      "[ " ++ (selected ++ "]") ++ " " ++ Text.Quoted.encode name ++ " " ++ "define" := by
    show "[ " ++ selected ++ "] " ++ Text.Quoted.encode name ++ " define" = _
    rw [show " define" = " " ++ "define" from rfl, show "] " = "]" ++ " " from rfl]
    simp only [String.append_assoc]
  have opening : Token.Yields "[ ".toList [.opening] := Token.Yields.opening.append .blank
  have inside : Token.Yields (selected ++ "]").toList
      ((Token.ofSource "" selected).1.map (·.lexeme) ++ [.closing]) := by
    rw [String.toList_append]
    exact Token.yields_of_break rfl (Prod.ext rfl whole)
  have yields : Token.Yields
      ("[ " ++ (selected ++ "]") ++ " " ++ Text.Quoted.encode name ++ " ").toList
      ([.opening] ++ ((Token.ofSource "" selected).1.map (·.lexeme) ++ [.closing]) ++ [] ++
        [.string (Text.Quoted.encode name)] ++ []) := by
    rw [String.toList_append, String.toList_append, String.toList_append, String.toList_append]
    exact (((opening.append inside).append .blank).append (Token.yields_encode name)).append .blank
  have valid' : nameProblem? "define" = none := by decide
  obtain ⟨tokens, lexed, lexemes⟩ := yields.ofSource_name valid' source
  rw [← written] at lexed
  simp only [List.append_nil, List.append_assoc, List.cons_append, List.nil_append] at lexemes
  -- The lexemes tell what each token is; their places are whatever they are.
  obtain ⟨⟨_, bracket⟩, inner, rfl, rfl, inners⟩ := List.map_eq_cons_iff.1 lexemes
  obtain ⟨body, ends, rfl, same, closes⟩ := List.map_eq_append_iff.1 inners
  obtain ⟨⟨_, bracket'⟩, two, rfl, rfl, twos⟩ := List.map_eq_cons_iff.1 closes
  obtain ⟨⟨_, quoted⟩, one, rfl, rfl, ones⟩ := List.map_eq_cons_iff.1 twos
  obtain ⟨⟨_, ending⟩, none, rfl, rfl, nones⟩ := List.map_eq_cons_iff.1 ones
  obtain rfl := List.map_eq_nil_iff.1 nones
  have closed' : Token.Closed body := (Token.closes_congr same 0).trans closed
  exact ⟨_, body, lexed, same,
    ⟨bracket, bracket', quoted, ending, _, rfl, Text.Quoted.decode?_encode name⟩, closed', valid⟩

/-- The definition of a word binds it to the code of the text, wherever it is run. -/
theorem exists_defined {machine : Machine} (resting : machine.Resting) (room : 0 < machine.limit)
    (defining : machine.Defining) (contained : Token.SelfContained selected)
    (valid : nameProblem? name = none) :
    ∃ place tokens,
      tokens.map (·.lexeme) = (Token.ofSource "" selected).1.map (·.lexeme) ∧
      (Machine.runSource definitionSource (definitionOf name selected)).attempt machine =
        (none, define { machine with location := some place } name
          (Code.ofTokens machine.bind tokens).1) := by
  obtain ⟨tokens, body, lexed, same, defines⟩ :=
    exists_definition contained valid definitionSource
  obtain ⟨place, ran⟩ := runSource_defines resting.inStep.orderly defining
    (by rw [resting.idle]; exact room) lexed defines
  exact ⟨place, body, same, by rw [Run.attempt, ran]⟩

end Session

end LiveStack
