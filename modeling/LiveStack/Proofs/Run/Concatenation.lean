import LiveStack.Proofs.Run.Calling
import LiveStack.Proofs.Run.Resemblance

/-!
# Running texts one behind the other

A text that lexes without a problem and leaves no list open ends between two pieces of code: with a
line break behind it, no token and no list of it reaches into the text that follows. So both texts
together are the code of the one and then the code of the other, and running this code is running
the two pieces in turn. The second text is read before the first is run in the one case, and after it
in the other. This makes no difference if the run leaves alone what the second text looks up.
-/

namespace LiveStack

open Execution

namespace Code

/-- A text behind another one that is whole, with a line break between them, is read as by itself. -/
theorem ofSource_append {name name₁ name₂ first second : String}
    (whole : (Token.ofSource name₁ first).2 = [])
    (ended : Token.Ended (Token.ofSource name₁ first).1) {binding binding' : Binding}
    (agrees : binding.Agrees binding' ((Token.ofSource name₂ second).1.map (·.lexeme))) :
    ∃ front back, (ofSource binding name (first ++ "\n" ++ second)).1 = front ++ back ∧
      Code.unplaced front = Code.unplaced (ofSource binding name₁ first).1 ∧
      Code.unplaced back = Code.unplaced (ofSource binding' name₂ second).1 := by
  have yields : Token.Yields (first ++ "\n").toList
      ((Token.ofSource name₁ first).1.map (·.lexeme)) := by
    rw [String.toList_append]
    exact Token.yields_of_blank rfl rfl (Prod.ext rfl whole)
  have lexemes := yields.lexemes_append name name₂ second
  obtain ⟨tokens, tokens', split, starts, ends⟩ := List.map_eq_append_iff.1 lexemes
  refine ⟨(ofTokens binding tokens).1, (ofTokens binding tokens').1, ?_, ?_, ?_⟩
  · show (ofTokens binding (Token.ofSource name (first ++ "\n" ++ second)).1).1 = _
    rw [split, ofTokens_append]
    rw [Token.Ended, starts]
    exact ended
  · exact ofTokens_like starts rfl fun _ _ => rfl
  · exact ofTokens_agrees ends rfl agrees

end Code

namespace Machine

/-- Two machines give the same answer to every question about words, but for places. -/
structure AnswersLike (first second : Machine) : Prop where
  entry : ∀ name, (first.dictionary.get? name).map Entry.unplaced =
    (second.dictionary.get? name).map Entry.unplaced
  contains : ∀ name, first.dictionary.contains name = second.dictionary.contains name
  names : first.dictionary.names = second.dictionary.names
  meaning : ∀ name, (first.bind name).map Word.unplaced = (second.bind name).map Word.unplaced
  token : ∀ token, first.dictionary.classify token = second.dictionary.classify token
  handler : ∀ index, (first.handlers.get? index).map Word.unplaced =
    (second.handlers.get? index).map Word.unplaced

theorem answersLike_of_sight {first second : Machine} (same : first.sight = second.sight) :
    AnswersLike first second := by
  have words : first.dictionary.unplaced = second.dictionary.unplaced :=
    congrArg Sight.dictionary same
  have handlers : first.handlers.map Word.unplaced = second.handlers.map Word.unplaced :=
    congrArg Sight.handlers same
  have entry (name : String) : (first.dictionary.get? name).map Entry.unplaced =
      (second.dictionary.get? name).map Entry.unplaced := by
    rw [← Dictionary.get?_unplaced, words, Dictionary.get?_unplaced]
  -- Whatever is asked of the dictionary is answered by its entries, and these are the same but for
  -- places.
  refine ⟨entry, ?_, ?_, bind_of_sight same, ?_, ?_⟩
  · intro name
    rw [Dictionary.contains, Dictionary.contains, ← Option.isSome_map, entry, Option.isSome_map]
  · rw [← Dictionary.names_unplaced, words, Dictionary.names_unplaced]
  · intro token
    have found := entry token
    rw [Dictionary.classify, Dictionary.classify]
    cases here : first.dictionary.get? token with
    | none =>
        rw [here, Option.map_none, eq_comm, Option.map_eq_none_iff] at found
        rw [found]
    | some entry =>
        rw [here, Option.map_some, eq_comm, Option.map_eq_some_iff] at found
        obtain ⟨entry', there, alike⟩ := found
        rw [there]
        exact congrArg (fun entry => TokenClass.ofKind entry.kind) alike.symm
  · intro index
    rw [← Layers.get?_map, handlers, Layers.get?_map]

/-- Code in two pieces, the first of which runs without a fault, is run as the second piece where
the first has ended. -/
theorem attempt_runCode_append {front back : Code} {machine middle : Machine}
    (ran : runCode front machine = .ok () middle) :
    (runCode (front ++ back)).attempt machine = (runCode back).attempt middle := by
  rw [Run.attempt, Run.attempt, runCode_append, bind_apply, ran]

/-- Code that runs without a fault does so, but for places, on machines that resemble each other. -/
theorem Resembles.exists_runCode {first second last : Machine} (same : first.Resembles second)
    {code code' : Code} (like : Code.unplaced code = Code.unplaced code')
    (ran : runCode code' second = .ok () last) :
    ∃ last', runCode code first = .ok () last' ∧ last'.Resembles last := by
  obtain ⟨causes, ends⟩ := same.attempt_runCode like
  rw [Run.attempt, Run.attempt, ran] at causes ends
  cases run : runCode code first with
  | error fault stopped =>
      rw [run] at causes
      cases causes
  | ok value last' =>
      rw [run] at ends
      exact ⟨last', rfl, ends⟩

/-- A text that is joined to another one by a line break is run as the first text and then the
second, if the first lexes without a problem, leaves no list open, runs without a fault, and leaves
alone the meaning of what is looked up for the second. Both ways end with the same success or the
same cause of failure, the same stack and the same messages for the user, and every question about
words has the same answer, all this but for places. The texts may be called by any names. -/
theorem concatenation_is_composition {machine middle : Machine} (name : String)
    {name₁ name₂ first second : String}
    (whole : (Token.ofSource name₁ first).2 = [])
    (ended : Token.Ended (Token.ofSource name₁ first).1)
    (ran : runSource name₁ first machine = .ok () middle)
    (kept : machine.bind.Agrees middle.bind ((Token.ofSource name₂ second).1.map (·.lexeme))) :
    let joined := (runSource name (first ++ "\n" ++ second)).attempt machine
    let apart := (runSource name₂ second).attempt middle
    joined.1.map (·.cause) = apart.1.map (·.cause) ∧
      joined.2.stack.map Value.unplaced = apart.2.stack.map Value.unplaced ∧
      joined.2.host.alerts = apart.2.host.alerts ∧ AnswersLike joined.2 apart.2 := by
  intro joined apart
  obtain ⟨front, back, split, fronts, backs⟩ := Code.ofSource_append whole ended kept
  -- The first text is read as the same code both times, and so it is run to the same machine.
  rw [runSource_apply] at ran
  have start : Resembles
      { machine with
        diagnostics := machine.diagnostics ++
          (Code.ofSource machine.bind name (first ++ "\n" ++ second)).2 }
      { machine with
        diagnostics := machine.diagnostics ++ (Code.ofSource machine.bind name₁ first).2 } :=
    ⟨⟨rfl, rfl, rfl⟩, rfl, rfl⟩
  obtain ⟨middle', ran', between⟩ := start.exists_runCode fronts ran
  have rest : joined = (runCode back).attempt middle' := by
    show (runSource name (first ++ "\n" ++ second)).attempt machine = _
    rw [attempt_runSource_apply, split, attempt_runCode_append ran']
  have other : apart = (runCode (Code.ofSource middle.bind name₂ second).1).attempt
      { middle with
        diagnostics := middle.diagnostics ++ (Code.ofSource middle.bind name₂ second).2 } :=
    attempt_runSource_apply name₂ second middle
  rw [rest, other]
  obtain ⟨causes, ends⟩ := (between.gather middle'.diagnostics _).attempt_runCode backs
  exact ⟨causes, ends.stack, ends.alerts, answersLike_of_sight ends.sight⟩

/-- A bracket that closes nothing is dropped at the beginning of the first text, and as well at the
end of the second, where a list is left open behind it. -/
theorem concatenation_is_composition_of_stray_brackets :
    let start : Machine := new 2 .empty
    let joined := (runSource "both" ("] true" ++ "\n" ++ "[ false ] ] [")).attempt start
    ∃ middle, runSource "first" "] true" start = .ok () middle ∧
      joined.1.map (·.cause) = none ∧
      joined.2.stack.map Value.unplaced =
        [.list [], .list [.made (.literal "false" (.bool false))], .bool true] ∧
      AnswersLike joined.2 ((runSource "second" "[ false ] ] [").attempt middle).2 := by
  intro start joined
  have lexed : Token.ofSource "first" "] true" =
      ([⟨.closing, ⟨"first", 1, 1⟩⟩, ⟨.word "true", ⟨"first", 1, 3⟩⟩], []) := by decide
  have lexed' : Token.ofSource "second" "[ false ] ] [" =
      ([⟨.opening, ⟨"second", 1, 1⟩⟩, ⟨.word "false", ⟨"second", 1, 3⟩⟩,
        ⟨.closing, ⟨"second", 1, 9⟩⟩, ⟨.closing, ⟨"second", 1, 11⟩⟩,
        ⟨.opening, ⟨"second", 1, 13⟩⟩], []) := by decide
  have read : Code.ofSource start.bind "first" "] true" =
      ([⟨some ⟨"first", 1, 3⟩, .literal "true" (.bool true)⟩],
        [.reading ⟨"first", 1, 1⟩ .unbalancedClose]) := by
    rw [Code.ofSource, lexed]
    rfl
  have read' : Code.ofSource start.bind "second" "[ false ] ] [" =
      ([⟨some ⟨"second", 1, 1⟩, .quote [⟨some ⟨"second", 1, 3⟩, .literal "false" (.bool false)⟩]⟩,
        ⟨some ⟨"second", 1, 13⟩, .quote []⟩],
        [.reading ⟨"second", 1, 11⟩ .unbalancedClose]) := by
    rw [Code.ofSource, lexed']
    rfl
  obtain ⟨middle, ran, words, stack⟩ : ∃ middle,
      runSource "first" "] true" start = .ok () middle ∧ middle.bind = start.bind ∧
        middle.stack = [.bool true] := by
    rw [runSource_apply, read]
    exact ⟨_, rfl, rfl, rfl⟩
  have agrees : start.bind.Agrees middle.bind
      ((Token.ofSource "second" "[ false ] ] [").1.map (·.lexeme)) := by
    rw [words]
    exact fun _ _ _ _ => rfl
  obtain ⟨causes, values, -, answers⟩ := concatenation_is_composition "both"
    (congrArg Prod.snd lexed) (by rw [lexed]; decide) ran agrees
  refine ⟨middle, ran, ?_, ?_, answers⟩
  · rw [causes, attempt_runSource_apply, words, read']
    rfl
  · rw [values, attempt_runSource_apply, words, read']
    show List.map Value.unplaced (.list [] :: .list _ :: middle.stack) = _
    rw [stack]
    rfl

end Machine

end LiveStack
