import LiveStack.Proofs.Editor.Typing
import LiveStack.Proofs.Run.Resemblance
import LiveStack.Proofs.Session.Standing

/-!
# Loading a text and running it

A text that is typed into an empty editor is printed tidied up, with its brackets in pairs. It
reads as the same code as the text does, but for places. A session with no words made runs the
printed text on a machine that resembles a new one. So to load a text into a session is to run it
on a new machine.
-/

namespace LiveStack

open Execution

namespace Machine

/-- A place that execution reached before is not seen. -/
theorem resembles_withLocation (machine : Machine) (location : Option Location) :
    Resembles { machine with location } machine :=
  ⟨⟨rfl, rfl, rfl⟩, rfl, rfl⟩

end Machine

namespace Session

open Machine

/-- With no words made, a machine that was just made is ready for a text as it is, but for the place
that it has reached. -/
theorem cleared_replay_of_bootstrapped {limit : Nat} {host : Host} {machine : Machine}
    (made : bootstrapped limit host = .ok machine) :
    cleared (replay machine []) = { machine with location := none } := by
  obtain ⟨stack, -, diagnostics, -⟩ := idle_of_bootstrapped made
  rw [replay_of_bootstrapped made, cleared, ← stack, ← diagnostics]

/-- What a session shows after a text is loaded is what it shows after the tidied text is run. -/
theorem finished_load {session : Session} (standing : session.Standing) (text : String) :
    (session.load text).evaluation =
        shown (Token.tidy text) (session.finished (Token.tidy text)) ∧
      (session.load text).machine = settled (session.finished (Token.tidy text)).2 := by
  obtain ⟨kids, sound⟩ := standing.editor
  obtain ⟨kids', typed⟩ := Editor.Typed.clear sound.arranged
  have source := (typed.source_insertSource session.classify text).2
  rw [load, evaluation_refresh, refresh_eq, evaluate_eq]
  simp only [source]
  exact ⟨rfl, rfl⟩

/-- With no words made, a session over the same base ends a text like a machine that was just made,
up to what its host heard before. -/
theorem finished_of_made {session : Session} (plain : session.definitions = []) {limit : Nat}
    {host : Host} {machine : Machine} (made : bootstrapped limit host = .ok machine)
    (base : session.machine.base = machine.base) (source : String) :
    ∃ (fault : Option Fault) (last : Machine),
      session.finished source = (fault, last.hearing session.machine.log) ∧
      (Machine.runSource editorSource source).attempt { machine with location := none } =
        (fault, last.hearing machine.log) := by
  have marked : session.machine.base.Marked := by
    rw [base]
    exact marked_of_bootstrapped made
  obtain ⟨fault, last, here, there⟩ : ∃ (fault : Option Fault) (last : Machine),
      session.finished source = (fault, last.hearing session.machine.log) ∧
        (fresh machine).finished source = (fault, last.hearing machine.log) :=
    finished_agrees base marked plain source
  rw [finished, show (fresh machine).definitions = [] from rfl,
    show (fresh machine).machine = machine from rfl, cleared_replay_of_bootstrapped made] at there
  exact ⟨fault, last, here, there⟩

/-- With no words made, a session over the same base runs a text like a machine that was just made
runs a text of the same code. -/
theorem finished_of_reads {session : Session} (plain : session.definitions = []) {limit : Nat}
    {host : Host} {machine : Machine} (made : bootstrapped limit host = .ok machine)
    (base : session.machine.base = machine.base) {name source source' : String}
    (reads : Code.unplaced (Code.ofSource machine.bind editorSource source).1 =
      Code.unplaced (Code.ofSource machine.bind name source').1) :
    (session.finished source).1.map (·.cause) =
        ((Machine.runSource name source').attempt machine).1.map (·.cause) ∧
      ∃ last : Machine, (session.finished source).2 = last.hearing session.machine.log ∧
        (last.hearing machine.log).Resembles
          ((Machine.runSource name source').attempt machine).2 := by
  obtain ⟨fault, last, here, there⟩ := finished_of_made plain made base source
  have resembling : Resembles { machine with location := none } machine :=
    resembles_withLocation machine none
  obtain ⟨causes, ends⟩ := resembling.attempt_runSource reads
  rw [there] at causes ends
  rw [here]
  exact ⟨causes, last, rfl, ends⟩

/-- Editing and running agree. A text that is inserted into an empty editor is printed as a text
that reads as the same code but for places, and without a problem, whatever was classified how and
whatever the words mean; inserted into an empty editor, what was printed is printed again. Hence to
load a text into a session with no words made, whatever was done in it before, comes to the same as
to run the text on a machine that was just made: to the same stack but for places, to the same new
messages, and to the same success or cause of failure. -/
theorem editing_and_running_agree :
    (∀ (classify : Editor.Classifier) (text : String),
      let printed := (Editor.new.insertSource classify text).source
      (∀ (binding : Binding) (name name' : String),
        Code.unplaced (Code.ofSource binding name printed).1 =
            Code.unplaced (Code.ofSource binding name' text).1 ∧
          (Code.ofSource binding name printed).2 = []) ∧
      ∀ classify' : Editor.Classifier,
        (Editor.new.insertSource classify' printed).source = printed) ∧
    ∀ (limit : Nat) (host host' : Host), host.fetch = host'.fetch →
      ∀ start, Session.new limit host = .ok start →
      ∀ actions, (start.after actions).definitions = [] →
      ∀ machine, bootstrapped limit host' = .ok machine →
      ∀ name text : String,
        let loaded := (start.after actions).load text
        let result := (Machine.runSource name text).attempt machine
        loaded.evaluation.stack.map Value.unplaced = result.2.stack.map Value.unplaced ∧
        loaded.evaluation.fault.map (·.cause) = result.1.map (·.cause) ∧
        ∃ news, loaded.machine.host.alerts = (start.after actions).machine.host.alerts ++ news ∧
          result.2.host.alerts = machine.host.alerts ++ news := by
  constructor
  · intro classify text printed
    obtain ⟨kids, typed⟩ := Editor.Typed.new
    have tidied (classify : Editor.Classifier) (text : String) :
        (Editor.new.insertSource classify text).source = Token.tidy text :=
      (typed.source_insertSource classify text).1
    simp only [printed, tidied]
    exact ⟨fun binding name name' => Code.ofSource_tidy binding name name' text,
      fun _ => Token.tidy_tidy text⟩
  · intro limit host host' sources start opened actions plain machine made name text loaded result
    have marked := marked_of_new opened
    have base : (start.after actions).machine.base = machine.base := by
      rw [base_after marked, base_of_bootstrapped sources (machine_of_new opened) made]
    obtain ⟨shows, leaves⟩ := finished_load ((standing_new opened).after actions) text
    -- What was loaded is printed tidily, and reads as the text does.
    have reads := (Code.ofSource_tidy machine.bind editorSource name text).1
    obtain ⟨causes, last, ends, resembles⟩ := finished_of_reads plain made base reads
    refine ⟨?_, ?_, last.host.alerts, ?_, resembles.alerts.symm⟩
    · simp only [loaded, shows, shown, ends]
      exact resembles.stack
    · simp only [loaded, shows, shown]
      exact causes
    · simp only [loaded, leaves, settled, ends]
      rfl

/-- A text with a stray bracket, a list that is left open and a string that is not ended: loaded
into a session where a run failed before, it leaves the list on the stack, as on a new machine. -/
theorem editing_and_running_agree_of_malformed :
    (Editor.new.insertSource (fun _ => .string) "] [ \"a\" \"b").source = "[ \"a\" ] " ∧
    ∃ start machine, Session.new 50 .empty = .ok start ∧
      bootstrapped 50 .empty = .ok machine ∧
      (start.after [.evaluate "drop"]).definitions = [] ∧
      ((start.after [.evaluate "drop"]).load "] [ \"a\" \"b").evaluation.stack.map
        Value.unplaced = [.list [.made (.literal "\"a\"" (.string "a"))]] ∧
      ((start.after [.evaluate "drop"]).load "] [ \"a\" \"b").evaluation.fault.map (·.cause) =
        none := by
  obtain ⟨start, opened, -, plain⟩ := exists_new (show 0 < 50 by decide) .empty
  obtain ⟨machine, made, ready⟩ := exists_bootstrapped (show 0 < 50 by decide) .empty
  have unnamed : machine.bind "\"a\"" = none := ready.orderly.bind_quoted (by decide)
  have lexed : Token.ofSource "<text>" "] [ \"a\" \"b" =
      ([⟨.closing, ⟨"<text>", 1, 1⟩⟩, ⟨.opening, ⟨"<text>", 1, 3⟩⟩,
        ⟨.string "\"a\"", ⟨"<text>", 1, 5⟩⟩],
        [.reading ⟨"<text>", 1, 9⟩ (.unterminatedString "\"b")]) := by
    decide
  have literal : Literal.read? "\"a\"" = some (.string "a") := rfl
  have reads : Code.ofSource machine.bind "<text>" "] [ \"a\" \"b" =
      ([⟨some ⟨"<text>", 1, 3⟩, .quote
        [⟨some ⟨"<text>", 1, 5⟩, .literal "\"a\"" (.string "a")⟩]⟩],
        [.reading ⟨"<text>", 1, 9⟩ (.unterminatedString "\"b"),
          .reading ⟨"<text>", 1, 1⟩ .unbalancedClose]) := by
    rw [Code.ofSource, lexed]
    simp [Code.ofTokens, Code.Parser.step, Code.Parser.finish, Element.ofToken, unnamed, literal]
  have run : Machine.runSource "<text>" "] [ \"a\" \"b" machine = .ok () { machine with
      diagnostics := machine.diagnostics ++
        [.reading ⟨"<text>", 1, 9⟩ (.unterminatedString "\"b"),
          .reading ⟨"<text>", 1, 1⟩ .unbalancedClose]
      location := some ⟨"<text>", 1, 3⟩
      stack := .list [⟨some ⟨"<text>", 1, 5⟩, .literal "\"a\"" (.string "a")⟩] ::
        machine.stack } :=
    (endsIn_runSource machine _ _).unique (endsIn_of_leads ⟨2, by
      simp [ofSource, Execution.read, reads, Execution.after, step, follow, settle]⟩)
  have kept : (start.after [.evaluate "drop"]).definitions = [] := plain
  obtain ⟨-, agree⟩ := editing_and_running_agree
  obtain ⟨stack, causes, -⟩ := agree 50 .empty .empty rfl start opened [.evaluate "drop"] kept
    machine made "<text>" "] [ \"a\" \"b"
  rw [Run.attempt, run] at stack causes
  refine ⟨?_, start, machine, opened, made, kept, ?_, causes⟩
  · obtain ⟨kids, typed⟩ := Editor.Typed.new
    rw [(typed.source_insertSource _ _).1]
    decide
  · rw [stack, (idle_of_bootstrapped made).1]
    simp [Value.unplaced, Code.unplaced_eq_map, Instruction.unplaced, Element.unplaced,
      Instruction.made]

end Session

end LiveStack
