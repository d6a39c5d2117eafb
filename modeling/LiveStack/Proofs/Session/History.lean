import LiveStack.Session
import LiveStack.Proofs.Document.Sketch
import LiveStack.Proofs.Run.Hearing
import LiveStack.Proofs.Run.Prelude

/-!
# Sessions have no memory

What a session shows does not depend on how it came to be what it is. A run leaves the base of the
machine as it was, and a reset goes back to a machine that is determined by its base and by what
the host has heard; what the host has heard makes no difference to a run. So two sessions with the
same words made evaluate every text alike, whatever was edited, run or refused before.
-/

namespace LiveStack

open Execution

namespace Session

/-- What can be done with a session. -/
inductive Action where
  | apply (edit : Edit)
  | load (source : String)
  | refresh
  | evaluate (source : String)
  | define (name : String) (overwrite : Bool)
deriving DecidableEq, Repr

/-- The session after an action. -/
def Action.perform (session : Session) : Action → Session
  | .apply edit => (session.apply edit).2
  | .load source => session.load source
  | .refresh => session.refresh
  | .evaluate source => session.evaluate source
  | .define name overwrite => (session.defineSelection name overwrite).2

/-- The session after some actions. -/
def after (session : Session) (actions : List Action) : Session :=
  actions.foldl Action.perform session

/-- Whether the program up to the cursor is run at the end of an action. An evaluation runs another
text, and a definition that is refused runs nothing more. -/
def Action.Refreshes (session : Session) : Action → Prop
  | .apply _ | .load _ | .refresh => True
  | .evaluate _ => False
  | .define name overwrite => (session.defineSelection name overwrite).1 = .ok ()

end Session

namespace Machine

/-- What the host of a machine has heard. -/
def log (machine : Machine) : Log := ⟨machine.host.alerts, machine.host.requests⟩

/-- The machine as if its host had heard nothing. -/
def quiet (machine : Machine) : Machine :=
  { machine with host := { machine.host with alerts := #[], requests := #[] } }

theorem hearing_quiet (machine : Machine) : machine.quiet.hearing machine.log = machine := by
  simp [quiet, log, hearing]

/-! ## Going back to the first state -/

/-- A reset depends on the base and on what was heard only. -/
theorem reset_congr {first second : Machine} (base : first.base = second.base)
    (log : first.log = second.log) : first.reset = second.reset := by
  obtain ⟨⟨fetch, alerts, requests⟩, limit, stack, location, calls, ⟨newest, older⟩,
    ⟨newest', older'⟩, diagnostics⟩ := first
  obtain ⟨⟨fetch₂, alerts₂, requests₂⟩, limit₂, stack₂, location₂, calls₂, ⟨newest₂, older₂⟩,
    ⟨newest₂', older₂'⟩, diagnostics₂⟩ := second
  simp only [Machine.base, Base.mk.injEq, Machine.log, Log.mk.injEq] at base log
  obtain ⟨rfl, rfl, rfl, rfl⟩ := base
  obtain ⟨rfl, rfl⟩ := log
  cases older <;> cases older' <;> rfl

theorem reset_hearing (before : Log) (machine : Machine) :
    (machine.hearing before).reset = machine.reset.map (hearing before) := by
  obtain ⟨host, limit, stack, location, calls, ⟨newest, older⟩, ⟨newest', older'⟩,
    diagnostics⟩ := machine
  cases older <;> cases older' <;> rfl

/-! ## Runs -/

theorem becomes_attempt (machine : Machine) (name source : String) :
    Becomes machine ((runSource name source).attempt machine).2 := by
  rw [attempt_snd]
  exact becomes_runSource machine name source

theorem base_attempt (machine : Machine) (name source : String) :
    ((runSource name source).attempt machine).2.base = machine.base :=
  (becomes_attempt machine name source).base_eq

end Machine

namespace Session

open Machine

/-! ## Replaying definitions -/

/-- The machine after the text of a definition. -/
def redefine (machine : Machine) (definition : Definition) : Machine :=
  ((Machine.runSource definitionSource definition.source).attempt machine).2

theorem redefine_hearing (before : Log) (definition : Definition) (machine : Machine) :
    redefine (machine.hearing before) definition =
      (redefine machine definition).hearing before := by
  rw [redefine, redefine, attempt_runSource_hearing]

theorem foldl_redefine_hearing (before : Log) (definitions : List Definition)
    (machine : Machine) :
    definitions.foldl redefine (machine.hearing before) =
      (definitions.foldl redefine machine).hearing before := by
  induction definitions generalizing machine with
  | nil => rfl
  | cons definition rest ih =>
      rw [List.foldl_cons, List.foldl_cons, redefine_hearing, ih]

theorem base_foldl_redefine (definitions : List Definition) (machine : Machine) :
    (definitions.foldl redefine machine).base = machine.base := by
  induction definitions generalizing machine with
  | nil => rfl
  | cons definition rest ih =>
      rw [List.foldl_cons, ih]
      exact base_attempt machine definitionSource definition.source

theorem replay_of_reset {machine fresh : Machine} (reset : machine.reset = .ok fresh)
    (definitions : List Definition) :
    replay machine definitions = definitions.foldl redefine fresh := by
  rw [replay, reset]
  rfl

/-- The last definition is replayed after the others. -/
theorem replay_concat (machine : Machine) (definitions : List Definition)
    (definition : Definition) :
    replay machine (definitions ++ [definition]) =
      redefine (replay machine definitions) definition := by
  rw [replay, List.foldl_append]
  rfl

/-- Machines of one base replay definitions alike. -/
theorem replay_agrees {first second : Machine} (base : first.base = second.base)
    (marked : first.base.Marked) (definitions : List Definition) :
    ∃ replayed : Machine, replayed.base = first.base ∧
      replay first definitions = replayed.hearing first.log ∧
      replay second definitions = replayed.hearing second.log := by
  obtain ⟨fresh, reset, kept⟩ : ∃ fresh, first.quiet.reset = .ok fresh ∧
      fresh.base = first.quiet.base := reset_of_marked marked
  have same : first.quiet.reset = second.quiet.reset := reset_congr base rfl
  have reset' : second.quiet.reset = .ok fresh := by rw [← same, reset]
  have back (machine : Machine) (quiet : machine.quiet.reset = .ok fresh) :
      replay machine definitions = (definitions.foldl redefine fresh).hearing machine.log := by
    have loud : machine.reset = .ok (fresh.hearing machine.log) := by
      have := reset_hearing machine.log machine.quiet
      rwa [hearing_quiet, quiet] at this
    rw [replay_of_reset loud, foldl_redefine_hearing]
  exact ⟨_, (base_foldl_redefine definitions fresh).trans kept, back first reset,
    back second reset'⟩

theorem base_replay {machine : Machine} (marked : machine.base.Marked)
    (definitions : List Definition) : (replay machine definitions).base = machine.base := by
  obtain ⟨replayed, kept, replay, -⟩ := replay_agrees rfl marked definitions
  rw [replay]
  exact kept

/-! ## Evaluations -/

/-- The machine that a text is run on, once the definitions are replayed. -/
def cleared (machine : Machine) : Machine := { machine with stack := [], diagnostics := [] }

theorem cleared_hearing (before : Log) (machine : Machine) :
    cleared (machine.hearing before) = (cleared machine).hearing before := rfl

/-- The fault and the machine that a text ends with. -/
def finished (session : Session) (source : String) : Option Fault × Machine :=
  (Machine.runSource editorSource source).attempt
    (cleared (replay session.machine session.definitions))

/-- What is kept of a machine after a text was run on it. -/
def settled (machine : Machine) : Machine := { machine with diagnostics := [] }

theorem base_settled (machine : Machine) : (settled machine).base = machine.base := rfl

/-- What is shown of running a text on a machine. -/
def shown (source : String) (result : Option Fault × Machine) : Evaluation where
  source := source
  stack := result.2.stack
  diagnostics := result.2.diagnostics
  fault := result.1

theorem evaluate_eq (session : Session) (source : String) :
    session.evaluate source =
      { session with
        machine := settled (session.finished source).2
        evaluation := shown source (session.finished source) } := by
  cases result : session.finished source with
  | mk fault machine =>
      rw [finished, cleared] at result
      simp only [evaluate, result, settled, shown]

theorem machine_evaluate (session : Session) (source : String) :
    (session.evaluate source).machine = settled (session.finished source).2 := by
  rw [evaluate_eq]

theorem evaluation_evaluate (session : Session) (source : String) :
    (session.evaluate source).evaluation = shown source (session.finished source) := by
  rw [evaluate_eq]

theorem editor_evaluate (session : Session) (source : String) :
    (session.evaluate source).editor = session.editor := by
  rw [evaluate_eq]

theorem definitions_evaluate (session : Session) (source : String) :
    (session.evaluate source).definitions = session.definitions := by
  rw [evaluate_eq]

/-- Sessions over one base with the same words made end a text alike, up to what their hosts heard
before. -/
theorem finished_agrees {first second : Session}
    (base : first.machine.base = second.machine.base) (marked : first.machine.base.Marked)
    (definitions : first.definitions = second.definitions) (source : String) :
    ∃ (fault : Option Fault) (machine : Machine),
      first.finished source = (fault, machine.hearing first.machine.log) ∧
      second.finished source = (fault, machine.hearing second.machine.log) := by
  obtain ⟨replayed, -, replay₁, replay₂⟩ := replay_agrees base marked first.definitions
  refine ⟨((Machine.runSource editorSource source).attempt (cleared replayed)).1,
    ((Machine.runSource editorSource source).attempt (cleared replayed)).2, ?_, ?_⟩
  · rw [finished, replay₁, cleared_hearing, attempt_runSource_hearing]
  · rw [finished, ← definitions, replay₂, cleared_hearing, attempt_runSource_hearing]

/-- Sessions over one base with the same words made evaluate every text alike: they show the same,
and the machines differ in nothing but what their hosts heard before. -/
theorem evaluate_agrees {first second : Session}
    (base : first.machine.base = second.machine.base) (marked : first.machine.base.Marked)
    (definitions : first.definitions = second.definitions) (source : String) :
    (first.evaluate source).evaluation = (second.evaluate source).evaluation ∧
      ∃ machine : Machine,
        (first.evaluate source).machine = machine.hearing first.machine.log ∧
        (second.evaluate source).machine = machine.hearing second.machine.log := by
  obtain ⟨fault, machine, first', second'⟩ := finished_agrees base marked definitions source
  refine ⟨?_, settled machine, ?_, ?_⟩
  · rw [evaluation_evaluate, evaluation_evaluate, first', second']
    rfl
  · rw [machine_evaluate, first']
    rfl
  · rw [machine_evaluate, second']
    rfl

theorem base_evaluate {session : Session} (marked : session.machine.base.Marked)
    (source : String) : (session.evaluate source).machine.base = session.machine.base := by
  rw [machine_evaluate, base_settled, finished, base_attempt]
  exact base_replay marked session.definitions

/-! ## Actions -/

theorem refresh_eq (session : Session) :
    session.refresh =
      { session.evaluate session.editor.sourceToCursor with
        editor := session.editor.reclassify
          (session.evaluate session.editor.sourceToCursor).classify } := by
  rw [refresh, evaluate_eq]

theorem evaluation_refresh (session : Session) :
    session.refresh.evaluation = (session.evaluate session.editor.sourceToCursor).evaluation := by
  rw [refresh_eq]

theorem editor_refresh (session : Session) :
    session.refresh.editor = session.editor.reclassify
      (session.evaluate session.editor.sourceToCursor).classify := by
  rw [refresh_eq]

theorem definitions_refresh (session : Session) :
    session.refresh.definitions = session.definitions := by
  rw [refresh_eq, definitions_evaluate]

theorem base_refresh {session : Session} (marked : session.machine.base.Marked) :
    session.refresh.machine.base = session.machine.base := by
  rw [refresh_eq, base_evaluate marked]

/-- The session in which the selection has become a word, before the program is run again. -/
def replaced (session : Session) (name selected : String) (machine : Machine) : Session :=
  { session with
    machine
    definitions := session.definitions ++ [⟨name, definitionOf name selected⟩]
    editor := session.editor.deleteSelection.2.insertWord machine.dictionary.classify name }

/-- A definition is refused before anything is done, or fails when it is run, or is made. -/
theorem defineSelection_cases (session : Session) (name : String) (overwrite : Bool) :
    (∃ refusal, session.selectionFor name overwrite = .error refusal ∧
      session.defineSelection name overwrite = (.error refusal, session)) ∨
    ∃ selected, session.selectionFor name overwrite = .ok selected ∧
      ((∃ fault machine,
        (Machine.runSource definitionSource (definitionOf name selected)).attempt session.machine =
          (some fault, machine) ∧
        session.defineSelection name overwrite =
          (.error (.failed fault), { session with machine })) ∨
      ∃ machine,
        (Machine.runSource definitionSource (definitionOf name selected)).attempt session.machine =
          (none, machine) ∧
        session.defineSelection name overwrite =
          (.ok (), refresh (session.replaced name selected machine))) := by
  rw [defineSelection]
  cases session.selectionFor name overwrite with
  | error refusal => exact .inl ⟨refusal, rfl, rfl⟩
  | ok selected =>
      refine .inr ⟨selected, rfl, ?_⟩
      simp only
      generalize (Machine.runSource definitionSource (definitionOf name selected)).attempt
        session.machine = result
      obtain ⟨fault, machine⟩ := result
      cases fault with
      | some fault => exact .inl ⟨fault, machine, rfl, rfl⟩
      | none => exact .inr ⟨machine, rfl, rfl⟩

theorem base_defineSelection {session : Session} (marked : session.machine.base.Marked)
    (name : String) (overwrite : Bool) :
    (session.defineSelection name overwrite).2.machine.base = session.machine.base := by
  rcases session.defineSelection_cases name overwrite with ⟨refusal, -, refused⟩ |
    ⟨selected, -, ⟨fault, machine, ran, failed⟩ | ⟨machine, ran, made⟩⟩
  · rw [refused]
  · have kept := base_attempt session.machine definitionSource (definitionOf name selected)
    rw [ran] at kept
    rw [failed]
    exact kept
  · have kept := base_attempt session.machine definitionSource (definitionOf name selected)
    rw [ran] at kept
    have marked' : (session.replaced name selected machine).machine.base.Marked := by
      rw [← kept] at marked
      exact marked
    rw [made]
    exact (base_refresh marked').trans kept

theorem base_perform {session : Session} (marked : session.machine.base.Marked)
    (action : Action) : (action.perform session).machine.base = session.machine.base := by
  cases action with
  | apply edit => exact base_refresh marked
  | load source => exact base_refresh marked
  | refresh => exact base_refresh marked
  | evaluate source => exact base_evaluate marked source
  | define name overwrite => exact base_defineSelection marked name overwrite

theorem base_after {session : Session} (marked : session.machine.base.Marked)
    (actions : List Action) : (session.after actions).machine.base = session.machine.base := by
  induction actions generalizing session with
  | nil => rfl
  | cons action rest ih =>
      have kept := base_perform marked action
      exact (ih (by rw [kept]; exact marked)).trans kept

/-! ## New sessions -/

theorem foldl_addPrimitive_hearing (before : Log) (primitives : List Primitive)
    (machine : Machine) :
    primitives.foldl addPrimitive (machine.hearing before) =
      (primitives.foldl addPrimitive machine).hearing before := by
  induction primitives generalizing machine with
  | nil => rfl
  | cons primitive rest ih => exact ih (machine.addPrimitive primitive)

theorem load_hearing (before : Log) (definition : String) (machine : Machine) :
    Prelude.load definition (machine.hearing before) =
      heard before (Prelude.load definition machine) := by
  rw [Prelude.load, bind_apply, bind_apply, runSource_hearing]
  cases Machine.runSource Prelude.sourceName definition machine with
  | error fault stopped => rfl
  | ok value loaded =>
      obtain ⟨host, limit, stack, location, calls, dictionary, handlers, diagnostics⟩ := loaded
      cases diagnostics <;> rfl

theorem forM_load_hearing (before : Log) (definitions : List String) (machine : Machine) :
    definitions.forM Prelude.load (machine.hearing before) =
      heard before (definitions.forM Prelude.load machine) := by
  induction definitions generalizing machine with
  | nil => rfl
  | cons definition rest ih =>
      show (Prelude.load definition >>= fun _ => rest.forM Prelude.load) (machine.hearing before) =
        heard before ((Prelude.load definition >>= fun _ => rest.forM Prelude.load) machine)
      rw [bind_apply, bind_apply, load_hearing]
      cases Prelude.load definition machine with
      | error fault stopped => rfl
      | ok value loaded => exact ih loaded

theorem builtIn_heard (limit : Nat) (host : Host) :
    builtIn limit host =
      (builtIn limit { fetch := host.fetch }).hearing ⟨host.alerts, host.requests⟩ := by
  have new : Machine.new limit host =
      (Machine.new limit { fetch := host.fetch }).hearing ⟨host.alerts, host.requests⟩ := by
    simp [Machine.new, mark, Machine.hearing]
  rw [builtIn, new, foldl_addPrimitive_hearing]
  rfl

/-- A new machine is the same over every host that holds the same code, up to what was heard. -/
theorem bootstrapped_heard (limit : Nat) (host : Host) :
    bootstrapped limit host = (bootstrapped limit { fetch := host.fetch }).map
      (Machine.hearing ⟨host.alerts, host.requests⟩) := by
  have loud := forM_load_hearing ⟨host.alerts, host.requests⟩ Prelude.definitions
    (builtIn limit { fetch := host.fetch })
  rw [← builtIn_heard] at loud
  cases quiet : Prelude.definitions.forM Prelude.load (builtIn limit { fetch := host.fetch }) with
  | ok value machine =>
      rw [quiet] at loud
      rw [bootstrapped_of_ok quiet, bootstrapped_of_ok loud]
      rfl
  | error fault machine =>
      rw [quiet] at loud
      rw [bootstrapped_of_error quiet, bootstrapped_of_error loud]
      rfl

theorem exists_new {limit : Nat} (room : 0 < limit) (host : Host) :
    ∃ start, Session.new limit host = .ok start ∧ start.editor = .new ∧ start.definitions = [] := by
  obtain ⟨machine, made, -⟩ := exists_bootstrapped room host
  refine ⟨{ editor := .new, machine }, ?_, rfl, rfl⟩
  rw [Session.new, made]
  rfl

/-- A session that was opened has an empty program, and no words made. -/
theorem exists_of_new {limit : Nat} {host : Host} {start : Session}
    (opened : Session.new limit host = .ok start) :
    ∃ machine, bootstrapped limit host = .ok machine ∧ start = { editor := .new, machine } := by
  rw [Session.new] at opened
  cases made : bootstrapped limit host with
  | error fault => simp [made, Bind.bind, Except.bind] at opened
  | ok machine =>
      simp only [made, Bind.bind, Except.bind, pure, Except.pure, Except.ok.injEq] at opened
      exact ⟨machine, rfl, opened.symm⟩

theorem machine_of_new {limit : Nat} {host : Host} {start : Session}
    (opened : Session.new limit host = .ok start) :
    bootstrapped limit host = .ok start.machine := by
  obtain ⟨machine, made, rfl⟩ := exists_of_new opened
  exact made

theorem marked_of_new {limit : Nat} {host : Host} {start : Session}
    (opened : Session.new limit host = .ok start) : start.machine.base.Marked :=
  marked_of_bootstrapped (machine_of_new opened)

/-- Machines made with one limit, over hosts that hold the same code, have one base. -/
theorem base_of_bootstrapped {limit : Nat} {host host' : Host} (sources : host.fetch = host'.fetch)
    {machine machine' : Machine} (made : bootstrapped limit host = .ok machine)
    (made' : bootstrapped limit host' = .ok machine') : machine.base = machine'.base := by
  rw [bootstrapped_heard] at made made'
  rw [← sources] at made'
  cases quiet : bootstrapped limit { fetch := host.fetch } with
  | error fault => simp [quiet, Except.map] at made
  | ok machine =>
      simp only [quiet, Except.map, Except.ok.injEq] at made made'
      rw [← made, ← made']
      rfl

/-- Sessions opened with one limit, over hosts that hold the same code, stand on one base. -/
theorem base_of_new {limit : Nat} {host host' : Host} (sources : host.fetch = host'.fetch)
    {start start' : Session} (opened : Session.new limit host = .ok start)
    (opened' : Session.new limit host' = .ok start') :
    start.machine.base = start'.machine.base :=
  base_of_bootstrapped sources (machine_of_new opened) (machine_of_new opened')

/-! ## Histories -/

theorem apply_eq (session : Session) (edit : Edit) :
    (session.apply edit).2 =
      refresh { session with editor := (edit.apply session.classify session.editor).2 } := rfl

/-- An action that runs the program in the end is a refresh of some session over the same base. -/
theorem exists_refresh {session : Session} {action : Action}
    (refreshes : action.Refreshes session) :
    ∃ before : Session, before.machine.base = session.machine.base ∧
      action.perform session = before.refresh := by
  -- What each action does before it runs the program leaves the base alone.
  cases action with
  | apply edit =>
      refine ⟨{ session with editor := (edit.apply session.classify session.editor).2 }, rfl, ?_⟩
      rw [Action.perform, apply_eq]
  | load source =>
      refine ⟨{ session with
        editor := session.editor.clear.insertSource session.classify source }, rfl, ?_⟩
      rw [Action.perform, load]
  | refresh => exact ⟨session, rfl, by rw [Action.perform]⟩
  | evaluate source => exact refreshes.elim
  | define name overwrite =>
      rw [Action.Refreshes] at refreshes
      rw [Action.perform]
      rcases session.defineSelection_cases name overwrite with ⟨refusal, -, refused⟩ |
        ⟨selected, -, ⟨fault, machine, ran, failed⟩ | ⟨machine, ran, made⟩⟩
      · simp [refused] at refreshes
      · simp [failed] at refreshes
      · have kept := base_attempt session.machine definitionSource (definitionOf name selected)
        rw [ran] at kept
        exact ⟨session.replaced name selected machine, kept, by rw [made]⟩

/-- Two sessions evaluate a text alike: they show the same, their hosts are shown the same new
messages, and the same words are defined after it. -/
structure Alike (first second : Session) (source : String) : Prop where
  evaluation : (first.evaluate source).evaluation = (second.evaluate source).evaluation
  alerts : ∃ news : Array String,
    (first.evaluate source).machine.host.alerts = first.machine.host.alerts ++ news ∧
    (second.evaluate source).machine.host.alerts = second.machine.host.alerts ++ news
  words : (first.evaluate source).words = (second.evaluate source).words

theorem alike_of_base {first second : Session}
    (base : first.machine.base = second.machine.base) (marked : first.machine.base.Marked)
    (definitions : first.definitions = second.definitions) (source : String) :
    Alike first second source := by
  obtain ⟨evaluation, machine, first', second'⟩ :=
    evaluate_agrees base marked definitions source
  refine ⟨evaluation, ⟨machine.host.alerts, ?_, ?_⟩, ?_⟩
  · rw [first']
    rfl
  · rw [second']
    rfl
  · rw [words, words, first', second']
    rfl

/-- Refreshed sessions show the same if their trees, cursors and definitions are the same. -/
theorem refresh_agrees {first second : Session}
    (base : first.machine.base = second.machine.base) (marked : first.machine.base.Marked)
    (definitions : first.refresh.definitions = second.refresh.definitions)
    (sketch : first.refresh.editor.sketch = second.refresh.editor.sketch) :
    first.refresh.evaluation = second.refresh.evaluation ∧
      first.refresh.editor.words = second.refresh.editor.words := by
  rw [definitions_refresh, definitions_refresh] at definitions
  rw [editor_refresh, editor_refresh, Editor.sketch_reclassify, Editor.sketch_reclassify] at sketch
  have source : first.editor.sourceToCursor = second.editor.sourceToCursor := by
    rw [Editor.sourceToCursor_eq, Editor.sourceToCursor_eq, sketch]
  obtain ⟨evaluation, machine, first', second'⟩ :=
    evaluate_agrees base marked definitions first.editor.sourceToCursor
  have classify : (first.evaluate first.editor.sourceToCursor).classify =
      (second.evaluate first.editor.sourceToCursor).classify := by
    rw [Session.classify, Session.classify, first', second']
    rfl
  constructor
  · rw [evaluation_refresh, evaluation_refresh, evaluation, source]
  · rw [editor_refresh, editor_refresh, Editor.words_reclassify, Editor.words_reclassify, sketch,
      ← source, classify]

/-- Sessions have no memory. Take two sessions opened with one limit over hosts that hold the same
code, and any two histories of them. If the words made are the same in the end, every text is
evaluated alike. And if both histories end with an action that runs the program, the evaluation
and the classes of the words in the tree are determined by the tree, the cursor and the words
made. -/
theorem history_independence {limit : Nat} {host host' : Host}
    (sources : host.fetch = host'.fetch) {start start' : Session}
    (opened : Session.new limit host = .ok start)
    (opened' : Session.new limit host' = .ok start') (actions actions' : List Action) :
    ((start.after actions).definitions = (start'.after actions').definitions →
      ∀ source, Alike (start.after actions) (start'.after actions') source) ∧
    ∀ last last' : Action,
      last.Refreshes (start.after actions) → last'.Refreshes (start'.after actions') →
      let session := last.perform (start.after actions)
      let session' := last'.perform (start'.after actions')
      session.definitions = session'.definitions →
      session.editor.sketch = session'.editor.sketch →
      session.evaluation = session'.evaluation ∧ session.editor.words = session'.editor.words := by
  have marked := marked_of_new opened
  have marked' := marked_of_new opened'
  -- The bases were made of the same code, and no action changes them.
  have base : (start.after actions).machine.base = (start'.after actions').machine.base := by
    rw [base_after marked, base_after marked', base_of_new sources opened opened']
  have kept : (start.after actions).machine.base.Marked := by
    rw [base_after marked]
    exact marked
  refine ⟨fun definitions source => alike_of_base base kept definitions source, ?_⟩
  intro last last' refreshes refreshes' session session' definitions sketch
  obtain ⟨before, same, eq⟩ := exists_refresh refreshes
  obtain ⟨before', same', eq'⟩ := exists_refresh refreshes'
  simp only [session, session', eq, eq'] at definitions sketch ⊢
  exact refresh_agrees (by rw [same, same', base]) (by rw [same]; exact kept) definitions sketch

theorem selectionFor_of_new {session : Session} (fresh : session.editor = .new) (name : String)
    (overwrite : Bool) : session.selectionFor name overwrite = .error .noSelection := by
  simp [selectionFor, Editor.selectionSource?, fresh, Editor.selection?, Editor.new]
  rfl

/-- One session runs a text that underflows the stack, and is refused a definition; another one does
nothing. They evaluate every text alike, and show the same when they are refreshed. -/
theorem history_independence_of_failures :
    ∃ start start' : Session,
      Session.new 50 .empty = .ok start ∧
      Session.new 50 { fetch := fun _ => none, alerts := #["before"] } = .ok start' ∧
      (∀ source, Alike (start.after [.evaluate "drop", .define "f" false]) (start'.after [])
        source) ∧
      (start.after [.evaluate "drop", .define "f" false]).refresh.evaluation =
        (start'.after []).refresh.evaluation := by
  obtain ⟨start, opened, editor, definitions⟩ := exists_new (show 0 < 50 by decide) .empty
  obtain ⟨start', opened', editor', definitions'⟩ := exists_new (show 0 < 50 by decide)
    { fetch := fun _ => none, alerts := #["before"] }
  have refused : (start.evaluate "drop").selectionFor "f" false = .error .noSelection :=
    selectionFor_of_new (by rw [editor_evaluate, editor]) ..
  have idle : start.after [.evaluate "drop", .define "f" false] = start.evaluate "drop" := by
    rw [after, List.foldl_cons, List.foldl_cons, List.foldl_nil, Action.perform, Action.perform,
      defineSelection, refused]
  have same : (start.evaluate "drop").definitions = start'.definitions := by
    rw [definitions_evaluate, definitions, definitions']
  have sketch : (start.evaluate "drop").refresh.editor.sketch = start'.refresh.editor.sketch := by
    rw [editor_refresh, editor_refresh, Editor.sketch_reclassify, Editor.sketch_reclassify,
      editor_evaluate, editor, editor']
  have sources : Host.empty.fetch =
      Host.fetch { fetch := fun _ => none, alerts := #["before"] } := rfl
  have all := history_independence sources opened opened' [.evaluate "drop", .define "f" false] []
  refine ⟨start, start', opened, opened', ?_⟩
  rw [idle] at all ⊢
  refine ⟨all.1 same, ?_⟩
  have shown := all.2 .refresh .refresh True.intro True.intro
  rw [Action.perform, Action.perform] at shown
  refine (shown ?_ sketch).1
  rw [definitions_refresh, definitions_refresh]
  exact same

end Session

end LiveStack
