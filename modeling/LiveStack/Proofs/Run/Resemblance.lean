import LiveStack.Proofs.Run.Abreast

/-!
# Machines that resemble each other

Two machines resemble each other if they show the same and see the same, and have as many calls
open. Running texts that read as the same code keeps them alike: the two runs go abreast, whatever
words are called, until both have nothing left to do or are stopped by the same cause.
-/

namespace LiveStack

open Run

/-- Machines that show and see the same, with as many calls open. -/
structure Machine.Resembles (first second : Machine) : Prop extends first.Like second where
  sight : first.sight = second.sight
  calls : second.calls.length = first.calls.length

namespace Execution

/-- Nothing is under the two executions but the calls that were open before. -/
def Ground.floor (callers callers' : List String) (even : callers'.length = callers.length) :
    Ground where
  frames := []
  frames' := []
  callers := callers
  callers' := callers'
  sighted := True
  even := fun _ => even
  deeper := by omega

variable {callers callers' : List String} {even : callers'.length = callers.length}

/-- Executions that are being stopped lose the same frames. -/
theorem abreast_unwind {machine machine' : Machine} {frames frames' : List Frame}
    {fault fault' : Fault}
    (abreast : Abreast (Ground.floor callers callers' even) ⟨machine, frames, some fault⟩
      ⟨machine', frames', some fault'⟩) :
    Abreast (Ground.floor callers callers' even) (step ⟨machine, frames, some fault⟩)
      (step ⟨machine', frames', some fault'⟩) := by
  obtain ⟨atop, like, causes⟩ := abreast
  simp only at atop like causes
  generalize names : machine.callers = above at atop
  generalize names' : machine'.callers = above' at atop
  -- A fault takes the innermost frame off, and with it the call, if it was one.
  cases atop with
  | ground =>
      refine ⟨?_, like, causes⟩
      show Atop _ [] [] machine.callers machine'.callers
      rw [names, names']
      exact .ground
  | code same under =>
      subst names names'
      exact ⟨under, like, causes⟩
  | call same under =>
      refine ⟨?_, ⟨⟨like.stack, like.alerts, like.limit⟩, like.sight⟩, causes⟩
      show Atop _ _ _ (Machine.callers { machine with calls := machine.calls.tail })
        (Machine.callers { machine' with calls := machine'.calls.tail })
      rw [callers_tail names, callers_tail names']
      exact under

/-- Over the floor, executions stay abreast at every step. -/
theorem abreast_step_floor {first second : Execution}
    (abreast : Abreast (Ground.floor callers callers' even) first second) :
    Abreast (Ground.floor callers callers' even) first.step second.step := by
  cases going : first.fault with
  | none =>
      rcases abreast_step abreast going (.inr True.intro) with ⟨-, further⟩ | grounded
      · exact further
      · obtain ⟨frames, frames', -, -⟩ := grounded
        rw [step_of_isOver frames, step_of_isOver frames']
        exact abreast
  | some fault =>
      obtain ⟨machine, frames, _⟩ := first
      obtain ⟨machine', frames', fault'⟩ := second
      obtain rfl := going
      cases fault' with
      | none => cases abreast.fault
      | some fault' => exact abreast_unwind abreast

end Execution

namespace Machine

open Execution

variable {first second : Machine}

theorem Resembles.even (same : first.Resembles second) :
    second.callers.length = first.callers.length := by
  simpa [callers] using same.calls

/-- Code that is the same but for places begins abreast. -/
theorem Resembles.abreast (same : first.Resembles second) {code code' : Code}
    (like : Code.unplaced code = Code.unplaced code') :
    Abreast (Ground.floor first.callers second.callers same.even) (ofCode first code)
      (ofCode second code') :=
  ⟨.code like .ground, ⟨⟨same.stack, same.alerts, same.limit⟩, fun _ => same.sight⟩, rfl⟩

/-- Code that is the same but for places is run alike: with the same success or the same cause of
failure, and to machines that resemble each other again. -/
theorem Resembles.attempt_runCode (same : first.Resembles second) {code code' : Code}
    (like : Code.unplaced code = Code.unplaced code') :
    ((runCode code).attempt first).1.map (·.cause) =
        ((runCode code').attempt second).1.map (·.cause) ∧
      ((runCode code).attempt first).2.Resembles ((runCode code').attempt second).2 := by
  have last : Abreast _ (settle _ []) (settle _ []) :=
    related_settle (fun _ _ abreast => abreast_step_floor abreast) (same.abreast like)
      (endsIn_runCode first code) (endsIn_runCode second code')
  have calls := balanced_runCode first code
  have calls' := balanced_runCode second code'
  rw [attempt_eq_settle, attempt_eq_settle]
  refine ⟨last.fault, last.machine.toLike, last.machine.sight True.intro, ?_⟩
  rw [machine_settle, machine_settle, calls.1, calls'.1]
  exact same.calls

/-- The problems of reading that have gathered make no difference. -/
theorem Resembles.gather (same : first.Resembles second) (faults faults' : List Fault) :
    Resembles { first with diagnostics := faults } { second with diagnostics := faults' } :=
  ⟨⟨same.stack, same.alerts, same.limit⟩, same.sight, same.calls⟩

/-- Running a text is running the code that it reads as. The problems of reading are gathered. -/
theorem runSource_apply (name source : String) (machine : Machine) :
    runSource name source machine =
      runCode (Code.ofSource machine.bind name source).1
        { machine with
          diagnostics := machine.diagnostics ++ (Code.ofSource machine.bind name source).2 } :=
  -- Both are what one and the same execution ends in.
  (endsIn_runSource machine name source).unique (endsIn_runCode _ _)

theorem attempt_runSource_apply (name source : String) (machine : Machine) :
    (runSource name source).attempt machine =
      (runCode (Code.ofSource machine.bind name source).1).attempt
        { machine with
          diagnostics := machine.diagnostics ++ (Code.ofSource machine.bind name source).2 } := by
  rw [Run.attempt, Run.attempt, runSource_apply]

/-- Texts that read as the same code are run alike. -/
theorem Resembles.attempt_runSource (same : first.Resembles second) {name name' : String}
    {source source' : String}
    (reads : Code.unplaced (Code.ofSource first.bind name source).1 =
      Code.unplaced (Code.ofSource second.bind name' source').1) :
    ((runSource name source).attempt first).1.map (·.cause) =
        ((runSource name' source').attempt second).1.map (·.cause) ∧
      ((runSource name source).attempt first).2.Resembles
        ((runSource name' source').attempt second).2 := by
  rw [attempt_runSource_apply, attempt_runSource_apply]
  exact (same.gather _ _).attempt_runCode reads

end Machine

end LiveStack
