import LiveStack.CommandLine
import LiveStack.Proofs.Run.Diagnostics
import LiveStack.Proofs.Session.Loading

/-!
# What is shown of the problems of a text

A text that is run in a session shows what is wrong with it, and behind that what is wrong with the
texts that it reads in turn. A text that is loaded goes through the editor first, which keeps what
it could read of the text, and none of the problems: what is run has no problems of its own. A file
that is run from the command line shows its problems if the run comes to its end, and none of them
if a fault stops it.
-/

namespace LiveStack

open Machine

namespace CommandLine

/-! ## Reports -/

/-- A line for each of the problems. -/
def complaints (problems : List Fault) : String :=
  String.join (problems.map fun problem => problem.render ++ "\n")

/-- The line that a run ends with when a fault stops it. -/
def lastWords (fault : Fault) : String := s!"Error: {fault.reported.render}" ++ "\n"

namespace Report

theorem foldl_complain (report : Report) (problems : List Fault) :
    problems.foldl (fun (report : Report) problem => report.complain problem.render) report =
      { report with err := report.err ++ complaints problems } := by
  induction problems generalizing report with
  | nil => simp [complaints]
  | cons problem rest ih =>
      rw [List.foldl_cons, ih]
      simp [complain, complaints, String.append_assoc]

/-- Lines that are printed leave the code and what was complained about as they are. -/
theorem foldl_print {α : Type} (line : α → String) (items : List α) (report : Report) :
    (items.foldl (fun report item => report.print (line item)) report).code = report.code ∧
      (items.foldl (fun report item => report.print (line item)) report).err = report.err := by
  induction items generalizing report with
  | nil => exact ⟨rfl, rfl⟩
  | cons item rest ih => exact ih (report.print (line item))

end Report

/-- The report of a run that has come to its end, or that a fault has stopped. -/
def Report.ofRun (fault : Option Fault) (machine : Machine) : Report :=
  match fault with
  | some fault => (printAlerts {} machine 0).failWith fault
  | none =>
      { printAlerts {} machine 0 with err := complaints machine.diagnostics }.printStack
        machine.stack

/-- A file is run on a machine that was just made. -/
theorem runFile_eq {settings : Settings} {files : Files} {path source : String}
    {machine : Machine}
    (made : bootstrapped settings.maxCallDepth (files.host settings.searchPaths) = .ok machine)
    (held : files.readText path = .ok source) :
    runFile settings files path =
      Report.ofRun ((Machine.runSource path source).attempt machine).1
        ((Machine.runSource path source).attempt machine).2 := by
  have printed (last : Machine) : (Report.printAlerts {} last 0).err = "" :=
    (Report.foldl_print id _ {}).2
  delta runFile
  simp only [made, held, textOrFault, Bind.bind, Except.bind, pure, Except.pure]
  cases ((Machine.runSource path source).attempt machine).1 with
  | some fault => rfl
  | none =>
      simp only [Report.ofRun, Report.foldl_complain, printed, String.empty_append]

/-- A run that has come to its end shows all the problems that were noted. -/
theorem Report.ofRun_none (machine : Machine) :
    (ofRun none machine).code = 0 ∧
      (ofRun none machine).err = complaints machine.diagnostics := by
  obtain ⟨code, err⟩ := foldl_print (fun value : Value => s!"  {value.source}") machine.stack
    { printAlerts {} machine 0 with err := complaints machine.diagnostics }
  exact ⟨code.trans (foldl_print id _ {}).1, err⟩

/-- A run that a fault has stopped shows the fault, and no problem that was noted. -/
theorem Report.ofRun_some (fault : Fault) (machine : Machine) :
    (ofRun (some fault) machine).code = 1 ∧
      (ofRun (some fault) machine).err = lastWords fault := by
  refine ⟨rfl, ?_⟩
  show (printAlerts {} machine 0).err ++ s!"Error: {fault.reported.render}" ++ "\n" =
    lastWords fault
  rw [show (printAlerts {} machine 0).err = "" from (foldl_print id _ {}).2, String.empty_append,
    lastWords]

end CommandLine

namespace Session

/-- The run of a text in a session, from where the words made are defined. -/
def execution (session : Session) (text : String) : Execution :=
  .ofSource (cleared (replay session.machine session.definitions)) editorSource text

/-- In any session, a loaded text shows what is wrong with the texts that it reads in turn. If the
text is run as it is, what is wrong with itself is shown before that. -/
theorem exists_readings {session : Session} (standing : session.Standing) (text : String) :
    ∃ texts : List Reading, (session.execution text).Reads texts ∧
      (session.load text).evaluation.diagnostics = texts.flatMap Reading.problems ∧
      (session.evaluate text).evaluation.diagnostics =
        Code.problems editorSource text ++ texts.flatMap Reading.problems := by
  rw [execution]
  have empty : (cleared (replay session.machine session.definitions)).diagnostics = [] := rfl
  generalize ready : cleared (replay session.machine session.definitions) = machine at empty
  obtain ⟨like, clean⟩ := Code.ofSource_tidy machine.bind editorSource editorSource text
  rw [Code.ofSource_problems] at clean
  have same : machine.Resembles machine := ⟨⟨rfl, rfl, rfl⟩, rfl, rfl⟩
  obtain ⟨texts, read, run, loaded⟩ := same.diagnostics_runSource like.symm
  refine ⟨texts, read, ?_, ?_⟩
  · simp only [(finished_load standing text).1, shown, finished, ready, loaded, clean, empty,
      List.nil_append]
  · simp only [evaluation_evaluate, shown, finished, ready, run, empty, List.nil_append]

/-- With no words made, a session ends a text like a machine that was just made, on which the text
may be called otherwise. Behind what is wrong with the text itself, both have noted the same. -/
theorem exists_readings_of_made {session : Session} (plain : session.definitions = [])
    {limit : Nat} {host : Host} {machine : Machine}
    (made : bootstrapped limit host = .ok machine)
    (base : session.machine.base = machine.base) (path text : String) :
    (session.finished text).1.map (·.cause) =
        ((Machine.runSource path text).attempt machine).1.map (·.cause) ∧
      ∃ texts : List Reading,
        (session.finished text).2.diagnostics =
          Code.problems editorSource text ++ texts.flatMap Reading.problems ∧
        ((Machine.runSource path text).attempt machine).2.diagnostics =
          Code.problems path text ++ texts.flatMap Reading.problems := by
  have reads : Code.unplaced (Code.ofSource machine.bind editorSource text).1 =
      Code.unplaced (Code.ofSource machine.bind path text).1 :=
    Code.ofTokens_like (Token.map_lexeme_ofSource editorSource path text) rfl fun _ _ => rfl
  have clean : machine.diagnostics = [] := (idle_of_bootstrapped made).2.2.1
  have resembling : Resembles { machine with location := none } machine :=
    resembles_withLocation machine none
  -- Both runs begin on machines that see the same, and so read the same texts.
  obtain ⟨fault, last, here, there⟩ := finished_of_made plain made base text
  obtain ⟨causes, -⟩ := resembling.attempt_runSource reads
  obtain ⟨texts, -, noted, noted'⟩ := resembling.diagnostics_runSource reads
  rw [there] at causes noted
  simp only [clean, List.nil_append] at noted noted'
  rw [here]
  exact ⟨causes, texts, noted, noted'⟩

/-- In a new session, a text that is only a word that takes values is stopped, because the stack is
empty. What is wrong with the text is noted. -/
theorem finished_underflow {limit : Nat} {host : Host} {start : Session}
    (opened : Session.new limit host = .ok start) {text name : String} {primitive : Primitive}
    {place : Option Location}
    (reads : (Code.ofSource start.machine.bind editorSource text).1 =
      [⟨place, .word ⟨name, .primitive primitive⟩⟩])
    (takes : 0 < primitive.arity) :
    ∃ (fault : Fault) (last : Machine), start.finished text = (some fault, last) ∧
      fault.cause = .stackUnderflow name primitive.arity 0 ∧
      last.diagnostics = Code.problems editorSource text := by
  obtain ⟨machine, made, rfl⟩ := exists_of_new opened
  obtain ⟨stack, idle, clean, -⟩ := idle_of_bootstrapped made
  let ready : Machine := { machine with
    location := none
    diagnostics := machine.diagnostics ++ Code.problems editorSource text }
  have room : ready.calls.length < ready.limit := by
    show machine.calls.length < machine.limit
    rw [idle]
    exact (ready_of_bootstrapped made).room
  have missing : Run.split? primitive.arity [] ready.stack = none := by
    rw [show ready.stack = [] from stack, ← Nat.succ_pred_eq_of_pos takes]
    rfl
  obtain ⟨fault, last, run, cause, noted⟩ := attempt_runCode_underflow name place room missing
  refine ⟨fault, last, ?_, ?_, ?_⟩
  · rw [finished, cleared_replay_of_bootstrapped made, attempt_runSource_apply,
      Code.ofSource_problems]
    change (Machine.runCode (Code.ofSource machine.bind editorSource text).1).attempt ready =
      (some fault, last)
    rw [reads]
    exact run
  · rw [cause, show ready.stack = [] from stack, List.length_nil]
  · rw [noted, show ready.diagnostics = machine.diagnostics ++ _ from rfl, clean, List.nil_append]

/-- What is wrong with a text is shown when the text is run, and not when it is loaded. In any
session, whatever was done in it before, running a text shows what is wrong with the text, and
behind that what is wrong with the texts that it reads in turn; loading the text shows only the
latter. If no words were made in the session, the same text as a file is run from the command line
to the same success or the same cause of failure. It shows the same problems if it succeeds. If it
fails it shows the fault that stopped it, and none of the problems. -/
theorem problems_are_shown_by_runs {limit : Nat} {host : Host} {start : Session}
    (opened : Session.new limit host = .ok start) (actions : List Action) (text : String) :
    let session := start.after actions
    let ran := (session.evaluate text).evaluation
    ∃ texts : List Reading, (session.execution text).Reads texts ∧
      (session.load text).evaluation.diagnostics = texts.flatMap Reading.problems ∧
      ran.diagnostics = Code.problems editorSource text ++ texts.flatMap Reading.problems ∧
      (session.definitions = [] → ∀ (settings : Settings) (files : Files) (path : String),
        settings.maxCallDepth = limit → (files.host settings.searchPaths).fetch = host.fetch →
        files.readText path = .ok text →
        let report := CommandLine.runFile settings files path
        match ran.fault with
        | none =>
            report.code = 0 ∧ report.err = CommandLine.complaints
              (Code.problems path text ++ texts.flatMap Reading.problems)
        | some fault =>
            report.code = 1 ∧ ∃ fault' : Fault, fault'.cause = fault.cause ∧
              report.err = CommandLine.lastWords fault') := by
  intro session ran
  have standing : session.Standing := (standing_new opened).after actions
  obtain ⟨texts, read, loaded, noted⟩ := exists_readings standing text
  refine ⟨texts, read, loaded, noted, fun plain settings files path depth sources held => ?_⟩
  obtain ⟨machine, made, -⟩ := exists_bootstrapped (room_of_bootstrapped (machine_of_new opened))
    (files.host settings.searchPaths)
  have base : session.machine.base = machine.base := by
    rw [base_after (marked_of_new opened),
      base_of_bootstrapped sources.symm (machine_of_new opened) made]
  obtain ⟨causes, texts', here, there⟩ := exists_readings_of_made plain made base path text
  -- Behind what is wrong with the text itself, the session shows the same as was said already.
  have same : texts.flatMap Reading.problems = texts'.flatMap Reading.problems := by
    refine List.append_cancel_left (noted.symm.trans ?_)
    simp only [evaluation_evaluate, shown, here]
  rw [← same] at there
  have fault : ran.fault = (session.finished text).1 := by
    simp only [ran, evaluation_evaluate, shown]
  subst depth
  rw [fault, CommandLine.runFile_eq made held]
  generalize (Machine.runSource path text).attempt machine = result at causes there
  obtain ⟨fault', last⟩ := result
  cases ended : (session.finished text).1 with
  | none =>
      rw [ended] at causes
      obtain rfl : fault' = none := Option.map_eq_none_iff.1 causes.symm
      rw [← there]
      exact CommandLine.Report.ofRun_none last
  | some fault =>
      rw [ended] at causes
      obtain ⟨fault', rfl, same⟩ := Option.map_eq_some_iff.1 causes.symm
      obtain ⟨code, err⟩ := CommandLine.Report.ofRun_some fault' last
      exact ⟨code, fault', same, err⟩

/-- A bracket that closes nothing, and then a word that finds the stack empty: loaded, the text
shows no problem; run, it shows the bracket; run as a file, it shows the stack underflow alone. -/
theorem problems_are_shown_by_runs_of_drop :
    let files : Files := fun _ => .file "] drop".toUTF8
    ∃ start, Session.new 50 (files.host []) = .ok start ∧
      (start.load "] drop").evaluation.diagnostics = [] ∧
      (start.evaluate "] drop").evaluation.diagnostics =
        [.reading ⟨"<editor>", 1, 1⟩ .unbalancedClose] ∧
      let report := CommandLine.runFile { maxCallDepth := 50 } files "a.b"
      report.code = 1 ∧ ∃ fault : Fault, fault.cause = .stackUnderflow "drop" 1 0 ∧
        report.err = CommandLine.lastWords fault := by
  intro files
  obtain ⟨start, opened, -, plain⟩ := exists_new (show 0 < 50 by decide) (files.host [])
  obtain ⟨word, bound, is⟩ := exists_bound (machine_of_new opened)
    (show (Prelude.Item.primitive (.operation .drop)).name? = some "drop" from rfl)
  cases is
  replace bound : start.machine.bind "drop" = some ⟨"drop", .primitive (.operation .drop)⟩ :=
    bound
  have own : Code.problems editorSource "] drop" =
      [.reading ⟨"<editor>", 1, 1⟩ .unbalancedClose] := by
    decide
  have lexed : (Token.ofSource editorSource "] drop").1 =
      [⟨.closing, ⟨"<editor>", 1, 1⟩⟩, ⟨.word "drop", ⟨"<editor>", 1, 3⟩⟩] := by
    decide
  have reads : (Code.ofSource start.machine.bind editorSource "] drop").1 =
      [⟨some ⟨"<editor>", 1, 3⟩, .word ⟨"drop", .primitive (.operation .drop)⟩⟩] := by
    simp [Code.ofSource, lexed, Code.ofTokens, Code.Parser.step, Code.Parser.finish,
      Element.ofToken, bound]
  obtain ⟨fault, last, ended, cause, noted⟩ := finished_underflow opened reads (by decide)
  have after : start.after [] = start := rfl
  obtain ⟨texts, -, loaded, run, file⟩ := problems_are_shown_by_runs opened [] "] drop"
  rw [after] at loaded run file
  have shows : (start.evaluate "] drop").evaluation = shown "] drop" (some fault, last) := by
    rw [evaluation_evaluate, ended]
  -- The run notes what is wrong with its own text alone, so no other text was read.
  have nothing : texts.flatMap Reading.problems = [] := by
    rw [shows] at run
    exact List.self_eq_append_right.1 (noted.symm.trans run)
  rw [nothing] at loaded run
  rw [shows] at file
  obtain ⟨code, fault', same, err⟩ :=
    file plain { maxCallDepth := 50 } files "a.b" rfl rfl (by decide)
  exact ⟨start, opened, loaded, run.trans own, code, fault', same.trans cause, err⟩

end Session

end LiveStack
