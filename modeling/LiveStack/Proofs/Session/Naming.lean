import LiveStack.Proofs.Editor.Replacing
import LiveStack.Proofs.Run.Inlining
import LiveStack.Proofs.Session.Definitions

/-!
# Naming a part of the program

A word made of the selection takes its place in the program. The text that makes the word is a
definition of it: run when the word is made, and again before every later run, it leaves the word
bound to the code of the selection. All other words mean what they did. So the program with the
name in it does the same as the program with the selection, as long as there is room for the one
call more, and nothing in the program looks at the words as such.
-/

namespace LiveStack

open Execution

namespace Session

open Machine

variable {session : Session} {front run back : List Outline} {name : String}

/-! ## The definition -/

/-- Nodes are written as a self-contained text, if every word in them is one word or one string. -/
theorem selfContained_spellAll
    (single : ∀ word ∈ Outline.wordsAll run, (Lexeme.ofText? word.1).isSome) :
    Token.SelfContained (Outline.spellAll run) ∧
      (Token.ofSource "" (Outline.spellAll run)).1.map (·.lexeme) = Outline.lexemesAll run := by
  obtain ⟨inside, paired⟩ := Outline.yields_spellAll run single
  obtain ⟨tokens, lexed, lexemes⟩ := inside.ofSource ""
  rw [Token.SelfContained, lexed]
  exact ⟨⟨rfl, paired.closed lexemes⟩, lexemes⟩

/-- A selection that is there can be given a valid name that means nothing yet. -/
theorem selectionFor_of_unknown {selected : String}
    (found : session.editor.selectionSource? = some selected) (valid : nameProblem? name = none)
    (unknown : session.classify name = .unknown) :
    session.selectionFor name false = .ok selected := by
  have unquoted := unquoted_of_valid valid
  have nonempty : name.isEmpty = false := by
    cases empty : name.isEmpty with
    | false => rfl
    | true => simp [nameProblem?, empty] at valid
  simp [selectionFor, found, nonempty, unquoted, valid, unknown]
  rfl

/-- The definition is made. -/
theorem defineSelection_of_unknown (standing : session.Standing) (room : 0 < session.machine.limit)
    (defining : session.machine.Defining)
    (found : session.editor.selectionSource? = some (Outline.spellAll run))
    (single : ∀ word ∈ Outline.wordsAll run, (Lexeme.ofText? word.1).isSome)
    (valid : nameProblem? name = none) (unknown : session.classify name = .unknown) :
    ∃ machine, session.defineSelection name false =
      (.ok (), refresh (session.replaced name (Outline.spellAll run) machine)) := by
  have checked := selectionFor_of_unknown found valid unknown
  have contained := (selfContained_spellAll single).1
  obtain ⟨place, tokens, -, ran⟩ := exists_defined standing.machine room defining contained valid
  rcases session.defineSelection_cases name false with ⟨refusal, refused, -⟩ |
    ⟨selected, taken, ⟨fault, machine, failed, -⟩ | ⟨machine, -, made⟩⟩
  · cases checked.symm.trans refused
  · obtain rfl : Outline.spellAll run = selected := Except.ok.inj (checked.symm.trans taken)
    cases ran.symm.trans failed
  · obtain rfl : Outline.spellAll run = selected := Except.ok.inj (checked.symm.trans taken)
    exact ⟨machine, made⟩

/-! ## The program -/

/-- In the text of the program, the word is where the selection was. -/
theorem source_replaced {kids : Contents} (sound : session.editor.Sound kids)
    (selects : session.editor.SelectsRun front run back) (selected : String) (machine : Machine) :
    (refresh (session.replaced name selected machine)).editor.source =
      Outline.spellAll front ++ (name ++ " ") ++ Outline.spellAll back := by
  obtain ⟨span, prev, parts⟩ := Editor.exists_parts sound selects
  obtain ⟨id, shown⟩ := parts.outline_insertWord sound machine.dictionary.classify name
  rw [editor_refresh, Editor.source_reclassify, Editor.source_eq, replaced, shown,
    Outline.spellAll_append, Outline.spellAll, Outline.spell, ← String.append_assoc]

/-- The session with one word more that was made. -/
def withDefinition (session : Session) (name selected : String) : Session :=
  { session with definitions := session.definitions ++ [⟨name, definitionOf name selected⟩] }

/-- Once the definitions are replayed, the program with the name in it is run like the program with
the selection. -/
theorem finished_named (standing : session.Standing)
    (selects : session.editor.SelectsRun front run back)
    (single : ∀ word ∈ session.editor.words, (Lexeme.ofText? word.1).isSome)
    (valid : nameProblem? name = none)
    (absent : ∀ token ∈ (Token.ofSource editorSource session.editor.source).1,
      token.lexeme.text ≠ name)
    (defining : (replay session.machine session.definitions).Defining)
    (calm : ∀ count, ((ofSource (cleared (replay session.machine session.definitions)) editorSource
      session.editor.source).after count).Calm) :
    (session.finished session.editor.source).1.map (·.cause) =
        ((session.withDefinition name (Outline.spellAll run)).finished
          (Outline.spellAll front ++ (name ++ " ") ++ Outline.spellAll back)).1.map (·.cause) ∧
      (session.finished session.editor.source).2.Like
        ((session.withDefinition name (Outline.spellAll run)).finished
          (Outline.spellAll front ++ (name ++ " ") ++ Outline.spellAll back)).2 := by
  rw [selects.words] at single
  rw [selects.source] at absent calm ⊢
  have first := Outline.yields_spellAll front fun word mem => single word (by simp [mem])
  have inside : ∀ word ∈ Outline.wordsAll run, (Lexeme.ofText? word.1).isSome :=
    fun word mem => single word (by simp [mem])
  have second := Outline.yields_spellAll run inside
  have third := Outline.yields_spellAll back fun word mem => single word (by simp [mem])
  -- No token around the selection is the name.
  have whole := (first.1.append second.1).append third.1
  rw [← String.toList_append, ← String.toList_append] at whole
  obtain ⟨tokens, lexed, lexemes⟩ := whole.ofSource editorSource
  have others : ∀ lexeme ∈ Outline.lexemesAll front ++ Outline.lexemesAll back,
      lexeme.text ≠ name := by
    intro lexeme mem
    have held : lexeme ∈ tokens.map (·.lexeme) := by
      rw [lexemes]
      rcases List.mem_append.1 mem with mem | mem <;> simp [mem]
    obtain ⟨token, found, rfl⟩ := List.mem_map.1 held
    exact absent token (by rw [lexed]; exact found)
  have resting := resting_replay standing.machine session.definitions
  have room : 0 < (replay session.machine session.definitions).limit :=
    Nat.lt_of_le_of_lt (Nat.zero_le _) (calm 0).room
  obtain ⟨contained, written⟩ := selfContained_spellAll inside
  obtain ⟨place, body, same, ran⟩ := exists_defined resting room defining contained valid
  rw [written] at same
  -- The definition that was made comes last, after all that the word's body was bound to.
  have redone : replay session.machine (session.definitions ++
      [⟨name, definitionOf name (Outline.spellAll run)⟩]) =
      define { replay session.machine session.definitions with location := some place } name
        (Code.ofTokens (replay session.machine session.definitions).bind body).1 := by
    rw [replay_concat, redefine, ran]
  simp only [finished, withDefinition, redone]
  generalize replay session.machine session.definitions = replayed at *
  have orderly : Orderly { replayed with location := some place } :=
    ⟨resting.inStep.orderly.unquoted, resting.inStep.orderly.stored⟩
  have binds := bind_define orderly name (Code.ofTokens replayed.bind body).1
  have like : (cleared replayed).Like (cleared (define
      { replayed with location := some place } name (Code.ofTokens replayed.bind body).1)) :=
    ⟨rfl, rfl, rfl⟩
  refine (agrees_of_text like resting.idle resting.idle first second third valid same ?_ ?_
    editorSource).attempt_runSource calm
  · exact (binds name).trans (if_pos rfl)
  · exact fun lexeme mem => (binds lexeme.text).trans (if_neg (others lexeme mem))

/-- Naming a part of a program preserves the program. Take any session, with a selected run of nodes
of the top level, in which every word is one word or one string, and a valid name that means nothing
and is no token of the program; and let `define` be the built-in word, both now and after the
definitions. Then the word is made; the text of the program has the name in place of the selection;
and to evaluate the whole program comes to the same as before: to the same stack but for places, to
the same new messages, and to the same success or cause of failure. This is so if the program as it
was, at every step of its run, leaves room for one more call and does not call `eval`, `use` or
`words`. -/
theorem naming_preserves_the_program {session : Session} (reached : session.Reached)
    {front run back : List Outline} (selects : session.editor.SelectsRun front run back)
    (single : ∀ word ∈ session.editor.words, (Lexeme.ofText? word.1).isSome) {name : String}
    (valid : nameProblem? name = none) (unknown : session.classify name = .unknown)
    (absent : ∀ token ∈ (Token.ofSource editorSource session.editor.source).1,
      token.lexeme.text ≠ name)
    (defining : session.machine.Defining)
    (defining' : (replay session.machine session.definitions).Defining)
    (calm : ∀ count, ((ofSource (cleared (replay session.machine session.definitions)) editorSource
      session.editor.source).after count).Calm) :
    ∃ named selected, session.defineSelection name false = (.ok (), named) ∧
      session.editor.selectionSource? = some selected ∧
      session.editor.source = Outline.spellAll front ++ selected ++ Outline.spellAll back ∧
      named.editor.source = Outline.spellAll front ++ (name ++ " ") ++ Outline.spellAll back ∧
      let before := session.evaluate session.editor.source
      let after := named.evaluate named.editor.source
      before.evaluation.stack.map Value.unplaced = after.evaluation.stack.map Value.unplaced ∧
      before.evaluation.fault.map (·.cause) = after.evaluation.fault.map (·.cause) ∧
      ∃ news, before.machine.host.alerts = session.machine.host.alerts ++ news ∧
        after.machine.host.alerts = named.machine.host.alerts ++ news := by
  have standing := reached.standing
  have marked := reached.marked
  obtain ⟨kids, sound⟩ := standing.editor
  obtain ⟨span, prev, parts⟩ := Editor.exists_parts sound selects
  have found := parts.selectionSource? sound
  have inside : ∀ word ∈ Outline.wordsAll run, (Lexeme.ofText? word.1).isSome := fun word mem =>
    single word (by simp [selects.words, mem])
  have room : 0 < session.machine.limit := by
    have limit : (replay session.machine session.definitions).limit = session.machine.limit :=
      congrArg Base.limit (base_replay marked session.definitions)
    rw [← limit]
    exact Nat.lt_of_le_of_lt (Nat.zero_le _) (calm 0).room
  obtain ⟨machine, made⟩ :=
    defineSelection_of_unknown standing room defining found inside valid unknown
  have source :
      (refresh (session.replaced name (Outline.spellAll run) machine)).editor.source = _ :=
    source_replaced sound selects (Outline.spellAll run) machine
  have base := base_defineSelection marked name false
  rw [made] at base
  have definitions : (refresh (session.replaced name (Outline.spellAll run) machine)).definitions =
      session.definitions ++ [⟨name, definitionOf name (Outline.spellAll run)⟩] :=
    definitions_refresh _
  obtain ⟨causes, like⟩ := finished_named standing selects single valid absent defining' calm
  refine ⟨_, _, made, found, selects.source, source, ?_⟩
  generalize refresh (session.replaced name (Outline.spellAll run) machine) = named at *
  replace base : named.machine.base =
    (session.withDefinition name (Outline.spellAll run)).machine.base := base
  -- The program was run in between, which makes no difference.
  obtain ⟨fault, last, here, there⟩ :=
    finished_agrees base (base ▸ marked) definitions named.editor.source
  rw [← source, there] at causes like
  intro before after
  simp only [before, after, evaluation_evaluate, machine_evaluate, here, shown, settled]
  exact ⟨like.stack, causes, last.host.alerts, like.alerts, rfl⟩

/-! ## Two strings -/

end Session

namespace Document

/-- A program of one string. -/
def oneString (reading : TokenClass) : Document where
  slots := #[some { kind := .list 1 2 }, some { kind := .head, next := some 2, parent := some 0 },
    some { kind := .word reading "\"a\"", prev := some 1, parent := some 0 }]

/-- A program of two strings. -/
def twoStrings (reading reading' : TokenClass) : Document where
  slots := #[some { kind := .list 1 3 }, some { kind := .head, next := some 2, parent := some 0 },
    some { kind := .word reading "\"a\"", prev := some 1, next := some 3, parent := some 0 },
    some { kind := .word reading' "\"b\"", prev := some 2, parent := some 0 }]

theorem reclassify_oneString (reading : TokenClass) (classify : Editor.Classifier) :
    (oneString reading).reclassify classify = oneString (classify "\"a\"") := by
  simp [oneString, reclassify]

theorem reclassify_twoStrings (reading reading' : TokenClass) (classify : Editor.Classifier) :
    (twoStrings reading reading').reclassify classify =
      twoStrings (classify "\"a\"") (classify "\"b\"") := by
  simp [twoStrings, reclassify]

theorem outline_twoStrings (reading reading' : TokenClass) : (twoStrings reading reading').outline =
    [.head 1, .word 2 reading "\"a\"", .word 3 reading' "\"b\""] := rfl

end Document

/-- Both strings are selected on the way to the front. -/
theorem Editor.moveFirst_twoStrings (reading reading' : TokenClass) :
    ({ document := .twoStrings reading reading', cursor := 3 } : Editor).moveFirst true =
      (true, Editor.mk (.twoStrings reading reading') 1 (some 3) (some 2)) := rfl

namespace Session

open Machine

theorem exists_apply (session : Session) (edit : Edit) :
    ∃ classify, (Action.perform session (.apply edit)).editor =
      (edit.apply session.classify session.editor).2.reclassify classify :=
  ⟨_, editor_refresh _⟩

theorem machine_apply (session : Session) (edit : Edit) :
    (Action.perform session (.apply edit)).machine = settled (finished
      { session with editor := (edit.apply session.classify session.editor).2 }
      (edit.apply session.classify session.editor).2.sourceToCursor).2 := by
  rw [Action.perform, apply_eq, refresh_eq, machine_evaluate]

theorem finished_empty (session : Session) :
    (session.finished "").2 = cleared (replay session.machine session.definitions) := rfl

/-- A session with no words made, over the base of a machine. -/
structure Plain (session : Session) (machine : Machine) : Prop where
  definitions : session.definitions = []
  base : session.machine.base = machine.base

theorem Plain.apply {machine : Machine} (plain : session.Plain machine)
    (marked : machine.base.Marked) (edit : Edit) :
    (Action.perform session (.apply edit)).Plain machine := by
  have marked' : session.machine.base.Marked := by
    rw [plain.base]
    exact marked
  exact ⟨(definitions_refresh _).trans plain.definitions,
    (base_perform marked' (.apply edit)).trans plain.base⟩

/-- A session in which two strings were typed and both are selected, with the cursor in front of
them. -/
theorem exists_two_strings :
    ∃ (session : Session) (machine : Machine) (classify : Editor.Classifier),
      session.Reached ∧ machine.Ready ∧ session.machine.bind = machine.bind ∧
      (replay session.machine session.definitions).bind = machine.bind ∧
      (replay session.machine session.definitions).base = machine.base ∧
      session.editor.SelectsRun [.head 1]
        [.word 2 (classify "\"a\"") "\"a\"", .word 3 (classify "\"b\"") "\"b\""] [] := by
  obtain ⟨machine, made, ready⟩ := exists_bootstrapped (show 0 < 50 by decide) .empty
  have marked := marked_of_bootstrapped made
  obtain ⟨start, begun⟩ : ∃ start, start = fresh machine := ⟨_, rfl⟩
  obtain ⟨one, first⟩ : ∃ one, one = Action.perform start (.apply (.insertWord "\"a\"")) :=
    ⟨_, rfl⟩
  obtain ⟨two, second⟩ : ∃ two, two = Action.perform one (.apply (.insertWord "\"b\"")) :=
    ⟨_, rfl⟩
  have plain₀ : start.Plain machine := by
    rw [begun]
    exact ⟨rfl, rfl⟩
  have plain₁ : one.Plain machine := first ▸ plain₀.apply marked _
  have plain₂ : two.Plain machine := second ▸ plain₁.apply marked _
  have plain₃ := plain₂.apply marked (.moveFirst true)
  obtain ⟨c₁, inserted⟩ := exists_apply start (.insertWord "\"a\"")
  obtain ⟨c₂, inserted'⟩ := exists_apply one (.insertWord "\"b\"")
  obtain ⟨c₃, moved⟩ := exists_apply two (.moveFirst true)
  have editor₁ : one.editor = { document := .oneString (c₁ "\"a\""), cursor := 2 } := by
    rw [first, inserted, begun, Editor.reclassify]
    exact congrArg (Editor.mk · 2 none none) (Document.reclassify_oneString _ c₁)
  have editor₂ : two.editor =
      { document := .twoStrings (c₂ "\"a\"") (c₂ "\"b\""), cursor := 3 } := by
    rw [second, inserted', editor₁, Editor.reclassify]
    exact congrArg (Editor.mk · 3 none none) (Document.reclassify_twoStrings _ _ c₂)
  -- The program up to the cursor is empty, so that nothing was run.
  have passed : (two.editor.moveFirst true).2.sourceToCursor = "" := by
    rw [editor₂, Editor.moveFirst_twoStrings, Editor.sourceToCursor_eq_writeAll,
      Document.outline_twoStrings]
    rfl
  obtain ⟨session, third⟩ : ∃ session, session = Action.perform two (.apply (.moveFirst true)) :=
    ⟨_, rfl⟩
  have reached : session.Reached := by
    refine ⟨50, .empty, start,
      [.apply (.insertWord "\"a\""), .apply (.insertWord "\"b\""), .apply (.moveFirst true)],
      ?_, ?_⟩
    · rw [begun, Session.new, made]
      rfl
    · rw [third, second, first]
      rfl
  have ran : session.machine = settled (cleared (replay two.machine [])) := by
    rw [third, machine_apply two (.moveFirst true), ← plain₂.definitions]
    rw [show (Edit.apply (.moveFirst true) two.classify two.editor).2.sourceToCursor = "" from
      passed, finished_empty]
  rw [← third] at plain₃ moved
  have editor₃ : session.editor = Editor.mk
      (.twoStrings (c₃ "\"a\"") (c₃ "\"b\"")) 1 (some 3) (some 2) := by
    rw [moved, editor₂, Edit.apply, Editor.moveFirst_twoStrings]
    exact congrArg (Editor.mk · 1 (some 3) (some 2)) (Document.reclassify_twoStrings _ _ c₃)
  refine ⟨session, machine, c₃, reached, ready, ?_, ?_, ?_, ?_⟩
  · rw [ran]
    exact bind_replay_of_base made plain₂.base
  · rw [plain₃.definitions]
    exact bind_replay_of_base made plain₃.base
  · rw [base_replay, plain₃.base]
    rw [plain₃.base]
    exact marked
  · rw [editor₃]
    exact ⟨Document.outline_twoStrings _ _, ⟨2, 3⟩, rfl, rfl, rfl⟩

/-- Two strings are pushed without a call. -/
theorem runs_two_strings {machine : Machine} (resting : machine.Resting)
    (room : 0 < machine.limit) :
    (∀ count, ((ofSource machine editorSource "\"a\" \"b\" ").after count).Calm) ∧
      ((Machine.runSource editorSource "\"a\" \"b\" ").attempt machine).2.stack =
        .string "b" :: .string "a" :: machine.stack := by
  have unnamed : machine.bind "\"a\"" = none := resting.inStep.orderly.bind_quoted (by decide)
  have unnamed' : machine.bind "\"b\"" = none := resting.inStep.orderly.bind_quoted (by decide)
  have literal : Literal.read? "\"a\"" = some (.string "a") := rfl
  have literal' : Literal.read? "\"b\"" = some (.string "b") := rfl
  have lexed : Token.ofSource editorSource "\"a\" \"b\" " =
      ([⟨.string "\"a\"", ⟨"<editor>", 1, 1⟩⟩, ⟨.string "\"b\"", ⟨"<editor>", 1, 5⟩⟩], []) := by
    decide
  have start : ofSource machine editorSource "\"a\" \"b\" " = ofCode machine
      [⟨some ⟨"<editor>", 1, 1⟩, .literal "\"a\"" (.string "a")⟩,
        ⟨some ⟨"<editor>", 1, 5⟩, .literal "\"b\"" (.string "b")⟩] := by
    simp [ofSource, Execution.read, Code.ofSource, lexed, Code.ofTokens, Code.Parser.step,
      Code.Parser.finish, Element.ofToken, unnamed, unnamed', literal, literal', ofCode]
  have ran : Machine.runSource editorSource "\"a\" \"b\" " machine = .ok () { machine with
      location := some ⟨"<editor>", 1, 5⟩
      stack := .string "b" :: .string "a" :: machine.stack } :=
    (endsIn_runSource machine editorSource _).unique (endsIn_of_leads ⟨3, by
      rw [start]
      rfl⟩)
  constructor
  · intro count
    rw [start]
    refine calm_of_wordless (by rw [resting.idle]; exact room) ?_ count
    simp
  · rw [attempt_snd, ran]
    rfl

/-- Two strings are selected in a program that is nothing else, and named: the program becomes the
name, and pushes the same two strings. -/
theorem naming_preserves_the_program_of_strings :
    ∃ session named : Session, session.Reached ∧ session.editor.source = "\"a\" \"b\" " ∧
      session.defineSelection "f" false = (.ok (), named) ∧ named.editor.source = "f " ∧
      (named.evaluate "f ").evaluation.stack.map Value.unplaced = [.string "b", .string "a"] := by
  obtain ⟨session, machine, classify, reached, ready, binds, binds', base, selects⟩ :=
    exists_two_strings
  have standing := reached.standing
  have replayed := resting_replay standing.machine session.definitions
  have source : session.editor.source = "\"a\" \"b\" " := by
    rw [selects.source]
    simp [Outline.spellAll, Outline.spell]
  have single : ∀ word ∈ session.editor.words, (Lexeme.ofText? word.1).isSome := by
    rw [selects.words]
    simp only [Outline.wordsAll, Outline.words, List.cons_append, List.nil_append,
      List.forall_mem_cons, List.append_nil]
    exact ⟨by decide, by decide, List.forall_mem_nil _⟩
  have unbound : session.machine.bind "f" = none := by
    rw [binds]
    refine ready.bind_eq_none (by decide) ?_
    intro primitive
    cases primitive with
    | operation op => cases op <;> decide
    | _ => decide
  have unknown : session.classify "f" = .unknown :=
    standing.machine.inStep.classify_of_unbound unbound
  have absent : ∀ token ∈ (Token.ofSource editorSource session.editor.source).1,
      token.lexeme.text ≠ "f" := by
    rw [source]
    decide
  have defining : session.machine.Defining := by
    rw [Defining, binds]
    exact ready.defining
  have defining' : (replay session.machine session.definitions).Defining := by
    rw [Defining, binds']
    exact ready.defining
  have room : 0 < (replay session.machine session.definitions).limit := by
    rw [show (replay session.machine session.definitions).limit = machine.limit from
      congrArg Base.limit base]
    exact ready.room
  obtain ⟨calm, pushed⟩ := runs_two_strings (replayed.clear [] []) room
  rw [← source] at calm
  obtain ⟨named, selected, made, -, -, renamed, stack, -⟩ := naming_preserves_the_program reached
    selects single (show nameProblem? "f" = none by decide) unknown absent defining defining' calm
  replace renamed : named.editor.source = "f " := by
    rw [renamed]
    simp [Outline.spellAll, Outline.spell]
  refine ⟨session, named, reached, source, made, renamed, ?_⟩
  rw [source, renamed, evaluation_evaluate, evaluation_evaluate] at stack
  rw [evaluation_evaluate, ← stack]
  exact congrArg (List.map Value.unplaced) pushed

end Session

end LiveStack
