import LiveStack.Proofs.Run.Changes

/-!
# What the host has heard before

A run tells the host things, and never hears anything back from what was told. So a host that has
heard more before makes no difference to a run: every step commutes with putting a log in front of
what the host has heard, and so does the whole run.
-/

namespace LiveStack

open Execution

/-- What a host has heard. -/
structure Log where
  alerts : Array String
  requests : Array String

namespace Machine

/-- The machine whose host has heard `before` in front of all the rest. -/
def hearing (before : Log) (machine : Machine) : Machine :=
  { machine with
    host := { machine.host with
      alerts := before.alerts ++ machine.host.alerts
      requests := before.requests ++ machine.host.requests } }

end Machine

namespace Execution

variable {before : Log}

/-- The execution whose host has heard `before` in front of all the rest. -/
def hearing (before : Log) (execution : Execution) : Execution :=
  { execution with machine := execution.machine.hearing before }

theorem check_hearing {α : Type} {checked : Except Cause α} {machine : Machine}
    {frames : List Frame} {next next' : α → Execution}
    (same : ∀ value, next' value = (next value).hearing before) :
    check checked (machine.hearing before) frames next' =
      (check checked machine frames next).hearing before := by
  cases checked with
  | error cause => rfl
  | ok value => exact same value

theorem continueLoop_hearing (loop : Loop) (quotation items : Code) (machine : Machine)
    (frames : List Frame) :
    continueLoop loop quotation items (machine.hearing before) frames =
      (continueLoop loop quotation items machine frames).hearing before := by
  cases items with
  | nil => rfl
  | cons item rest => exact check_hearing fun value => rfl

/-- A request is added behind all that was heard before. -/
theorem request_hearing (machine : Machine) (name : String) :
    ({ machine.hearing before with
      host := { (machine.hearing before).host with
        requests := (machine.hearing before).host.requests.push name } } : Machine) =
    Machine.hearing before { machine with
      host := { machine.host with requests := machine.host.requests.push name } } := by
  simp [Machine.hearing]

theorem perform_hearing (work : Work) (machine : Machine) (frames : List Frame) :
    perform work (machine.hearing before) frames =
      (perform work machine frames).hearing before := by
  cases work with
  | give results => exact check_hearing fun values => rfl
  | dip x quotation => exact check_hearing fun code => rfl
  | loop loop list quotation =>
      exact check_hearing fun items => check_hearing fun code => continueLoop_hearing ..
  | words => rfl
  | define quotation name =>
      refine check_hearing fun body => check_hearing fun text => ?_
      cases nameProblem? text with
      | some reason => rfl
      | none => rfl
  | code code => rfl
  | source source => rfl
  | alert value => simp [perform, hearing, Machine.hearing]
  | use value =>
      simp only [perform, request_hearing]
      rw [show (machine.hearing before).host.fetch = machine.host.fetch from rfl]
      cases machine.host.fetch value.render with
      | some source => rfl
      | none => rfl

theorem begin_hearing (word : Word) (machine : Machine) (frames : List Frame) :
    begin word (machine.hearing before) frames =
      (begin word machine frames).hearing before := by
  rw [begin, begin]
  cases word.handler with
  | secondary body => rfl
  | primitive primitive =>
      exact check_hearing fun split =>
        perform_hearing (primitive.work split.1) { machine with stack := split.2 } frames

theorem enter_hearing (site : Location) (word : Word) (machine : Machine) (frames : List Frame) :
    enter site word (machine.hearing before) frames =
      (enter site word machine frames).hearing before := by
  by_cases full : machine.limit ≤ machine.calls.length
  · have full' : (machine.hearing before).limit ≤ (machine.hearing before).calls.length := full
    rw [enter, enter, if_pos full, if_pos full']
    rfl
  · have room : ¬ (machine.hearing before).limit ≤ (machine.hearing before).calls.length := full
    rw [enter, enter, if_neg full, if_neg room]
    exact begin_hearing word { machine with
      location := some site, calls := ⟨word.name, site⟩ :: machine.calls } frames

theorem follow_hearing (instruction : Instruction) (machine : Machine) (frames : List Frame) :
    follow instruction (machine.hearing before) frames =
      (follow instruction machine frames).hearing before := by
  rw [follow, follow]
  cases instruction.element with
  | word word =>
      exact enter_hearing _ word { machine with
        location := instruction.location.or machine.location } frames
  | literal text value => rfl
  | quote code => rfl
  | unknown text => rfl

/-- A step does the same, whatever was heard before. -/
theorem step_hearing (execution : Execution) :
    (execution.hearing before).step = execution.step.hearing before := by
  obtain ⟨machine, frames, fault⟩ := execution
  match frames, fault with
  | [], _ => rfl
  | .code _ :: _, some _ => rfl
  | .call _ :: _, some _ => rfl
  | .code [] :: _, none => rfl
  | .code (instruction :: _) :: _, none => exact follow_hearing ..
  | .call .nothing :: _, none => rfl
  | .call (.restore _) :: _, none => rfl
  | .call (.loop ..) :: _, none =>
      exact check_hearing fun split =>
        continueLoop_hearing _ _ _ { machine with stack := split.2 } _

theorem after_hearing (execution : Execution) (count : Nat) :
    (execution.hearing before).after count = (execution.after count).hearing before := by
  induction count generalizing execution with
  | zero => rfl
  | succ count ih => rw [after_succ, after_succ, step_hearing, ih]

end Execution

namespace Machine

variable {before : Log}

/-- A result, with a host that has heard `before` in front of all the rest. -/
def heard (before : Log) :
    EStateM.Result Fault Machine Unit → EStateM.Result Fault Machine Unit
  | .ok result machine => .ok result (machine.hearing before)
  | .error fault machine => .error fault (machine.hearing before)

theorem settle_heard (result : EStateM.Result Fault Machine Unit) :
    settle (heard before result) [] = (settle result []).hearing before := by
  cases result with
  | ok value machine => rfl
  | error fault machine => rfl

/-- A run does the same, whatever was heard before. -/
theorem runSource_hearing (name source : String) (machine : Machine) :
    runSource name source (machine.hearing before) =
      heard before (runSource name source machine) := by
  obtain ⟨count, ended⟩ := endsIn_runSource machine name source
  refine (endsIn_runSource (machine.hearing before) name source).unique
    (endsIn_of_leads ⟨count, ?_⟩)
  rw [settle_heard, ← ended count (Nat.le_refl count), ← after_hearing]
  rfl

theorem attempt_runSource_hearing (name source : String) (machine : Machine) :
    (runSource name source).attempt (machine.hearing before) =
      (((runSource name source).attempt machine).1,
        ((runSource name source).attempt machine).2.hearing before) := by
  rw [Run.attempt, Run.attempt, runSource_hearing]
  cases runSource name source machine with
  | ok value machine => rfl
  | error fault machine => rfl

end Machine

end LiveStack
