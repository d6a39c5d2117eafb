import LiveStack.Proofs.Session.Naming

/-!
# Words are made or refused

A word is made of the selection by running a text, on the machine that the last evaluation left. If
the text fails, the session keeps its editor, its words made and what it shows, and every later
evaluation is what it would have been; only the machine in between may be another. If the text runs,
it is replayed before every later run, behind the words made earlier. Where `define` is the built-in
word, the text of a self-contained selection cannot fail, and binds the name to the selection as it
reads behind the words made earlier.
-/

namespace LiveStack

namespace Session

open Machine

variable {session : Session} {name selected : String} {overwrite : Bool}

/-- What can be made a word is selected, and has a valid name. -/
theorem selected_of_selectionFor (taken : session.selectionFor name overwrite = .ok selected) :
    session.editor.selectionSource? = some selected ∧ nameProblem? name = none := by
  rw [selectionFor] at taken
  cases found : session.editor.selectionSource? with
  | none => simp [found] at taken
  | some source =>
      -- Whatever the other checks find, one of them that fails has no result.
      cases problem : nameProblem? name with
      | some reason =>
          simp only [found, problem] at taken
          repeat' split at taken
          all_goals cases taken
      | none =>
          simp only [found, problem] at taken
          repeat' split at taken
          all_goals cases taken
          exact ⟨rfl, rfl⟩

/-- A session that was opened has room for a call, whatever was done with it. -/
theorem Reached.room (reached : session.Reached) : 0 < session.machine.limit := by
  obtain ⟨limit, host, start, actions, opened, rfl⟩ := reached
  have base := base_after (marked_of_new opened) actions
  rw [show (start.after actions).machine.limit = start.machine.limit from congrArg Base.limit base]
  exact (ready_of_bootstrapped (machine_of_new opened)).room

/-- Where `define` is the built-in word, the text of a self-contained selection does not fail. -/
theorem Reached.defined (reached : session.Reached) (defining : session.machine.Defining)
    (contained : Token.SelfContained selected) (valid : nameProblem? name = none) :
    ((Machine.runSource definitionSource (definitionOf name selected)).attempt
      session.machine).1 = none := by
  obtain ⟨place, tokens, -, ran⟩ :=
    exists_defined reached.standing.machine reached.room defining contained valid
  rw [ran]

/-- The definitions of one base are replayed to the same words, and the one that was made last binds
its name to the text, as it reads behind the others. -/
theorem Standing.bind_replay_concat {after : Session} (standing : after.Standing)
    (room : 0 < after.machine.limit) (marked : after.machine.base.Marked)
    (base : after.machine.base = session.machine.base)
    (definitions : after.definitions =
      session.definitions ++ [⟨name, definitionOf name selected⟩])
    (defining : (replay session.machine session.definitions).Defining)
    (contained : Token.SelfContained selected) (valid : nameProblem? name = none) :
    ∃ body, (replay after.machine after.definitions).bind name = some ⟨name, .secondary body⟩ ∧
      Code.unplaced body = Code.unplaced
        (Code.ofSource (replay session.machine session.definitions).bind "" selected).1 := by
  obtain ⟨replayed, kept, here, there⟩ := replay_agrees base marked session.definitions
  have binds : (replay after.machine session.definitions).bind =
      (replay session.machine session.definitions).bind := by
    rw [here, there]
    rfl
  have resting := resting_replay standing.machine session.definitions
  have room' : 0 < (replay after.machine session.definitions).limit := by
    rw [show (replay after.machine session.definitions).limit = after.machine.limit from
      congrArg Base.limit (base_replay marked session.definitions)]
    exact room
  have defining' : (replay after.machine session.definitions).Defining := by
    rw [Defining, binds]
    exact defining
  -- The last definition is run on a machine that binds all names as the session does.
  obtain ⟨place, tokens, same, ran⟩ := exists_defined resting room' defining' contained valid
  have orderly : Orderly { replay after.machine session.definitions with location := some place } :=
    ⟨resting.inStep.orderly.unquoted, resting.inStep.orderly.stored⟩
  refine ⟨(Code.ofTokens (replay session.machine session.definitions).bind tokens).1, ?_,
    Code.ofTokens_like same rfl fun _ _ => rfl⟩
  rw [definitions, replay_concat, redefine, ran, binds]
  exact (bind_define orderly name _ name).trans (if_pos rfl)

/-- A definition from the selection is made, or refused. If it is refused, the editor, the words made
and the evaluation that is shown are unchanged, and every text is evaluated as it would have been.
If `define` means at the time what it is built in to mean, and the selection is made of whole tokens
with its brackets in pairs, the whole session is unchanged. If it is made, the words made have grown
by its text. And if `define` is the built-in word behind the words made earlier, the name is bound,
whenever a text is read to be evaluated, to a word whose body is the code of the selection as it
reads behind the words made earlier, but for places. -/
theorem words_are_made_or_refused (reached : session.Reached) (name : String) (overwrite : Bool) :
    (∀ refusal after, session.defineSelection name overwrite = (.error refusal, after) →
      after.editor = session.editor ∧ after.definitions = session.definitions ∧
      after.evaluation = session.evaluation ∧ (∀ source, Alike after session source) ∧
      (session.machine.Defining →
        (∀ selected ∈ session.editor.selectionSource?, Token.SelfContained selected) →
        after = session)) ∧
    ∀ after, session.defineSelection name overwrite = (.ok (), after) →
      ∃ selected, session.editor.selectionSource? = some selected ∧
        after.definitions = session.definitions ++ [⟨name, definitionOf name selected⟩] ∧
        let earlier := replay session.machine session.definitions
        (earlier.Defining → Token.SelfContained selected →
          ∃ body, (cleared (replay after.machine after.definitions)).bind name =
              some ⟨name, .secondary body⟩ ∧
            Code.unplaced body = Code.unplaced (Code.ofSource earlier.bind "" selected).1) := by
  have marked := reached.marked
  have base := base_defineSelection marked name overwrite
  have standing := reached.standing.defineSelection name overwrite
  rcases session.defineSelection_cases name overwrite with ⟨refusal, -, refused⟩ |
    ⟨selected, taken, ⟨fault, machine, ran, failed⟩ | ⟨machine, ran, made⟩⟩
  · refine ⟨?_, fun after done => by cases refused.symm.trans done⟩
    intro refusal' after done
    cases refused.symm.trans done
    exact ⟨rfl, rfl, rfl, alike_of_base rfl marked rfl, fun _ _ => rfl⟩
  · refine ⟨?_, fun after done => by cases failed.symm.trans done⟩
    intro refusal after done
    rw [done] at base
    cases failed.symm.trans done
    refine ⟨rfl, rfl, rfl, alike_of_base base (base ▸ marked) rfl, ?_⟩
    intro defining contained
    obtain ⟨found, valid⟩ := selected_of_selectionFor taken
    -- The text of a definition of whole tokens is read as it is meant, and does not fail.
    have defined := reached.defined defining (contained selected found) valid
    rw [ran] at defined
    cases defined
  · refine ⟨fun refusal after done => (by cases made.symm.trans done), ?_⟩
    intro after done
    obtain ⟨found, valid⟩ := selected_of_selectionFor taken
    have definitions : after.definitions =
        session.definitions ++ [⟨name, definitionOf name selected⟩] := by
      cases made.symm.trans done
      exact definitions_refresh _
    rw [done] at base standing
    refine ⟨selected, found, definitions, ?_⟩
    intro earlier defining contained
    have room : 0 < after.machine.limit := by
      rw [show after.machine.limit = session.machine.limit from congrArg Base.limit base]
      exact reached.room
    exact standing.bind_replay_concat room (base ▸ marked) base definitions defining contained valid

/-- Two strings are selected, and become the body of a word. -/
theorem words_are_made_or_refused_of_strings :
    ∃ (session after : Session) (body : Code), session.Reached ∧
      session.defineSelection "f" false = (.ok (), after) ∧
      after.definitions = session.definitions ++ [⟨"f", "[ \"a\" \"b\" ] \"f\" define"⟩] ∧
      (cleared (replay after.machine after.definitions)).bind "f" = some ⟨"f", .secondary body⟩ ∧
      Code.unplaced body =
        [.made (.literal "\"a\"" (.string "a")), .made (.literal "\"b\"" (.string "b"))] := by
  obtain ⟨session, machine, classify, reached, ready, binds, binds', -, selects⟩ :=
    exists_two_strings
  have standing := reached.standing
  obtain ⟨kids, sound⟩ := standing.editor
  obtain ⟨span, prev, parts⟩ := Editor.exists_parts sound selects
  have found := parts.selectionSource? sound
  have single : ∀ word ∈ Outline.wordsAll
      [.word 2 (classify "\"a\"") "\"a\"", .word 3 (classify "\"b\"") "\"b\""],
      (Lexeme.ofText? word.1).isSome := by
    simp only [Outline.wordsAll, Outline.words, List.cons_append, List.nil_append,
      List.forall_mem_cons, List.append_nil]
    exact ⟨by decide, by decide, List.forall_mem_nil _⟩
  have defining : session.machine.Defining := by
    rw [Defining, binds]
    exact ready.defining
  have unknown : session.classify "f" = .unknown := by
    refine standing.machine.inStep.classify_of_unbound ?_
    rw [binds]
    exact ready.bind_eq_none_of (by decide) (by decide)
  obtain ⟨last, made⟩ := defineSelection_of_unknown standing reached.room defining found single
    (show nameProblem? "f" = none by decide) unknown
  obtain ⟨selected, taken, definitions, bound⟩ :=
    (words_are_made_or_refused reached "f" false).2 _ made
  obtain rfl : selected = "\"a\" \"b\" " := by
    rw [found] at taken
    rw [← Option.some.inj taken]
    simp [Outline.spellAll, Outline.spell]
  have defining' : (replay session.machine session.definitions).Defining := by
    rw [Defining, binds']
    exact ready.defining
  obtain ⟨body, named, code⟩ := bound defining' (by decide)
  refine ⟨session, _, body, reached, made, definitions, named, ?_⟩
  have orderly := (resting_replay standing.machine session.definitions).inStep.orderly
  have unnamed := orderly.bind_quoted (show "\"a\"".toList.head? = some '"' by decide)
  have unnamed' := orderly.bind_quoted (show "\"b\"".toList.head? = some '"' by decide)
  have literal : Literal.read? "\"a\"" = some (.string "a") := rfl
  have literal' : Literal.read? "\"b\"" = some (.string "b") := rfl
  have lexed : Token.ofSource "" "\"a\" \"b\" " =
      ([⟨.string "\"a\"", ⟨"", 1, 1⟩⟩, ⟨.string "\"b\"", ⟨"", 1, 5⟩⟩], []) := by
    decide
  have read : (Code.ofSource (replay session.machine session.definitions).bind ""
      "\"a\" \"b\" ").1 =
      [⟨some ⟨"", 1, 1⟩, .literal "\"a\"" (.string "a")⟩,
        ⟨some ⟨"", 1, 5⟩, .literal "\"b\"" (.string "b")⟩] := by
    simp [Code.ofSource, lexed, Code.ofTokens, Code.Parser.step, Code.Parser.finish,
      Element.ofToken, unnamed, unnamed', literal, literal']
  rw [code, read]
  rfl

end Session

end LiveStack
