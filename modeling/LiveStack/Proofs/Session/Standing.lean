import LiveStack.Proofs.Editor.Soundness
import LiveStack.Proofs.Run.Contexts
import LiveStack.Proofs.Session.History

/-!
# What stands in every session

Between two actions, the editor of a session is sound, and its machine rests: no call is open in
it, and its dictionary is in step with its handlers. A new session is like that, and every action
leaves it so, whether or not what it ran was stopped by a fault.
-/

namespace LiveStack

open Execution

namespace Machine

/-- No call is open, and the dictionary and the handlers are in step. -/
structure Resting (machine : Machine) : Prop where
  inStep : machine.InStep
  idle : machine.calls = []

namespace Resting

variable {machine : Machine} (resting : machine.Resting)
include resting

/-- The stack and the problems of reading have no part in it. -/
theorem clear (stack : List Value) (diagnostics : List Fault) :
    Resting { machine with stack, diagnostics } :=
  ⟨⟨resting.inStep.stacked, resting.inStep.contexts⟩, resting.idle⟩

theorem attempt_runSource (name source : String) :
    ((runSource name source).attempt machine).2.Resting := by
  refine ⟨(becomes_attempt machine name source).inStep resting.inStep, ?_⟩
  rw [attempt_snd, (balanced_runSource machine name source).1]
  exact resting.idle

theorem reset {fresh : Machine} (done : machine.reset = .ok fresh) : fresh.Resting := by
  rcases resting.inStep.reset with ⟨-, refused⟩ | ⟨fresh', done', inStep⟩
  · cases done.symm.trans refused
  · obtain rfl : fresh = fresh' := Except.ok.inj (done.symm.trans done')
    refine ⟨inStep, ?_⟩
    rw [Machine.reset] at done
    cases released : machine.release with
    | error reason => simp [released, Bind.bind, Except.bind] at done
    | ok released' =>
        simp only [released, Bind.bind, Except.bind, pure, Except.pure, Except.ok.injEq] at done
        rw [← done]
        rfl

end Resting

theorem resting_of_bootstrapped {limit : Nat} {host : Host} {machine : Machine}
    (made : bootstrapped limit host = .ok machine) : machine.Resting :=
  ⟨inStep_bootstrapped made, (idle_of_bootstrapped made).2.1⟩

end Machine

namespace Session

open Machine

theorem resting_foldl_redefine {machine : Machine} (resting : machine.Resting)
    (definitions : List Definition) : (definitions.foldl redefine machine).Resting := by
  induction definitions generalizing machine with
  | nil => exact resting
  | cons definition rest ih => exact ih (resting.attempt_runSource _ definition.source)

theorem resting_replay {machine : Machine} (resting : machine.Resting)
    (definitions : List Definition) : (replay machine definitions).Resting := by
  refine resting_foldl_redefine ?_ definitions
  cases done : machine.reset with
  | error reason => exact resting
  | ok fresh => exact resting.reset done

/-- With no words made, a machine that was just made is replayed to what it is, but for the place
that it has reached. -/
theorem replay_of_bootstrapped {limit : Nat} {host : Host} {machine : Machine}
    (made : bootstrapped limit host = .ok machine) :
    replay machine [] = { machine with location := none } := by
  obtain ⟨-, -, -, reset⟩ := idle_of_bootstrapped made
  rw [replay_of_reset reset, List.foldl_nil]

/-- With no words made, the words mean the same on every machine of the same base. -/
theorem bind_replay_of_base {limit : Nat} {host : Host} {machine first : Machine}
    (made : bootstrapped limit host = .ok machine) (base : first.base = machine.base) :
    (replay first []).bind = machine.bind := by
  have marked : first.base.Marked := by
    rw [base]
    exact marked_of_bootstrapped made
  obtain ⟨replayed, -, here, there⟩ := replay_agrees base marked []
  have same : (replay first []).bind = (replay machine []).bind := by
    rw [here, there]
    rfl
  rw [same, replay_of_bootstrapped made]
  rfl

/-- The editor is sound, and the machine rests. -/
structure Standing (session : Session) : Prop where
  editor : ∃ kids, session.editor.Sound kids
  machine : session.machine.Resting

namespace Standing

variable {session : Session} (standing : session.Standing)
include standing

/-- Definitions and the run of a text leave a machine that rests. -/
theorem resting_finished (source : String) : (session.finished source).2.Resting := by
  have replayed := resting_replay standing.machine session.definitions
  exact (replayed.clear [] []).attempt_runSource editorSource source

theorem evaluate (source : String) : (session.evaluate source).Standing := by
  have resting := (standing.resting_finished source).clear (session.finished source).2.stack []
  rw [evaluate_eq]
  exact ⟨standing.editor, resting⟩

theorem refresh : session.refresh.Standing := by
  have evaluated := standing.evaluate session.editor.sourceToCursor
  obtain ⟨kids, sound⟩ := standing.editor
  rw [refresh_eq]
  generalize session.evaluate session.editor.sourceToCursor = after at evaluated
  exact ⟨⟨kids, Editor.reclassify_sound sound after.classify⟩, evaluated.machine⟩

theorem defineSelection (name : String) (overwrite : Bool) :
    (session.defineSelection name overwrite).2.Standing := by
  rcases session.defineSelection_cases name overwrite with ⟨refusal, -, refused⟩ |
    ⟨selected, -, ⟨fault, machine, ran, failed⟩ | ⟨machine, ran, made⟩⟩
  · rw [refused]
    exact standing
  · have resting := standing.machine.attempt_runSource definitionSource (definitionOf name selected)
    rw [ran] at resting
    rw [failed]
    exact ⟨standing.editor, resting⟩
  · have resting := standing.machine.attempt_runSource definitionSource (definitionOf name selected)
    rw [ran] at resting
    obtain ⟨kids, sound⟩ := standing.editor
    obtain ⟨-, kids', deleted⟩ := Editor.deleteSelection_sound sound
    obtain ⟨-, inserted⟩ := Editor.insertWord_sound deleted machine.dictionary.classify name
    have replaced : (session.replaced name selected machine).Standing := ⟨inserted, resting⟩
    rw [made]
    exact replaced.refresh

theorem perform (action : Action) : (action.perform session).Standing := by
  obtain ⟨kids, sound⟩ := standing.editor
  cases action with
  | apply edit =>
      rw [Action.perform, apply_eq]
      exact refresh ⟨(Editor.edit_sound sound session.classify edit).2, standing.machine⟩
  | load source =>
      obtain ⟨-, kids', cleared⟩ := Editor.clear_sound sound
      obtain ⟨-, inserted⟩ := Editor.insertSource_sound cleared session.classify source
      exact refresh ⟨inserted, standing.machine⟩
  | refresh => exact standing.refresh
  | evaluate source => exact standing.evaluate source
  | define name overwrite => exact standing.defineSelection name overwrite

theorem after (actions : List Action) : (session.after actions).Standing := by
  induction actions generalizing session with
  | nil => exact standing
  | cons action rest ih => exact ih (standing.perform action)

end Standing

/-- A session on a machine, in which nothing was done yet. -/
def fresh (machine : Machine) : Session := { editor := .new, machine }

theorem standing_new {limit : Nat} {host : Host} {start : Session}
    (opened : Session.new limit host = .ok start) : start.Standing := by
  obtain ⟨machine, made, rfl⟩ := exists_of_new opened
  exact ⟨Editor.exists_sound_new, resting_of_bootstrapped made⟩

/-- Sessions that come about: opened with some limit over some host, and acted upon. -/
def Reached (session : Session) : Prop :=
  ∃ limit host start actions, Session.new limit host = .ok start ∧ session = start.after actions

theorem Reached.standing {session : Session} (reached : session.Reached) : session.Standing := by
  obtain ⟨limit, host, start, actions, opened, rfl⟩ := reached
  exact (standing_new opened).after actions

theorem Reached.marked {session : Session} (reached : session.Reached) :
    session.machine.base.Marked := by
  obtain ⟨limit, host, start, actions, opened, rfl⟩ := reached
  have marked := marked_of_new opened
  rw [base_after marked]
  exact marked

end Session

end LiveStack
