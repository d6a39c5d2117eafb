import Mathlib.Logic.Relation
import LiveStack.Proofs.Run.Termination

/-!
# What running changes

Everything that a step does to the machine is one of a few small changes (`Machine.Change`): the
stack, the place, the call list and the gathered problems may become anything; a message or a
request is added for the host; a word of a valid name is added to the dictionary. So what all these
changes keep is kept by every run, and a run never touches the contexts below the newest, the
limit, or the code that the host holds.
-/

namespace LiveStack

open Execution Relation

namespace Machine

/-- A small change of a machine. -/
inductive Change : Machine → Machine → Prop
  | stack (machine : Machine) (stack : List Value) : Change machine { machine with stack }
  | location (machine : Machine) (location : Option Location) :
      Change machine { machine with location }
  | calls (machine : Machine) (calls : List Call) : Change machine { machine with calls }
  | diagnostics (machine : Machine) (diagnostics : List Fault) :
      Change machine { machine with diagnostics }
  | alert (machine : Machine) (message : String) :
      Change machine { machine with
        host := { machine.host with alerts := machine.host.alerts.push message } }
  | request (machine : Machine) (name : String) :
      Change machine { machine with
        host := { machine.host with requests := machine.host.requests.push name } }
  | define (machine : Machine) (name : String) (body : Code) (valid : nameProblem? name = none) :
      Change machine (machine.define name body)

/-- Small changes, one after the other. -/
abbrev Becomes : Machine → Machine → Prop := ReflTransGen Change

end Machine

namespace Execution

open Machine (Change Becomes)

/-! ## One step -/

theorem becomes_check {α : Type} {machine : Machine} {checked : Except Cause α}
    {frames : List Frame} {next : α → Execution}
    (becomes : ∀ value, Becomes machine (next value).machine) :
    Becomes machine (check checked machine frames next).machine := by
  cases checked with
  | error cause => exact .refl
  | ok value => exact becomes value

theorem becomes_continueLoop (loop : Loop) (quotation items : Code) (machine : Machine)
    (frames : List Frame) :
    Becomes machine (continueLoop loop quotation items machine frames).machine := by
  cases items with
  | nil => exact .single (.stack machine _)
  | cons item rest => exact becomes_check fun value => .single (.stack machine _)

theorem becomes_read (name source : String) (machine : Machine) (frames : List Frame) :
    Becomes machine (read name source machine frames).machine :=
  .single (.diagnostics machine _)

theorem becomes_perform (work : Work) (machine : Machine) (frames : List Frame) :
    Becomes machine (perform work machine frames).machine := by
  cases work with
  | give results => exact becomes_check fun values => .single (.stack machine _)
  | dip x quotation => exact becomes_check fun code => .refl
  | loop loop list quotation =>
      exact becomes_check fun items => becomes_check fun code => becomes_continueLoop ..
  | words => exact .single (.stack machine _)
  | define quotation name =>
      refine becomes_check fun body => becomes_check fun text => ?_
      cases problem : nameProblem? text with
      | some reason => exact .refl
      | none => exact .single (.define machine text body problem)
  | code code => exact .refl
  | source source => exact becomes_read ..
  | alert value => exact .single (.alert machine _)
  | use value =>
      have asked := Change.request machine value.render
      rw [perform]
      cases machine.host.fetch value.render with
      | some source => exact (ReflTransGen.single asked).trans (becomes_read ..)
      | none => exact .single asked

theorem becomes_enter (site : Location) (word : Word) (machine : Machine) (frames : List Frame) :
    Becomes machine (enter site word machine frames).machine := by
  rw [enter]
  split
  · exact .refl
  · refine .head (.calls machine (⟨word.name, site⟩ :: machine.calls))
      (.head (.location _ (some site)) ?_)
    rw [begin]
    cases word.handler with
    | secondary body => exact .refl
    | primitive primitive =>
        exact becomes_check fun split => .head (.stack _ split.2) (becomes_perform ..)

theorem becomes_follow (instruction : Instruction) (machine : Machine) (frames : List Frame) :
    Becomes machine (follow instruction machine frames).machine := by
  refine .head (.location machine (instruction.location.or machine.location)) ?_
  rw [follow]
  cases instruction.element with
  | word word => exact becomes_enter ..
  | literal text value => exact .single (.stack _ _)
  | quote code => exact .single (.stack _ _)
  | unknown text => exact .refl

/-- Every step makes small changes only. -/
theorem becomes_step (execution : Execution) :
    Becomes execution.machine execution.step.machine := by
  obtain ⟨machine, frames, fault⟩ := execution
  match frames, fault with
  | [], _ => exact .refl
  | .code _ :: _, some _ => exact .refl
  | .call _ :: _, some _ => exact .single (.calls machine _)
  | .code [] :: _, none => exact .refl
  | .code (instruction :: _) :: _, none => exact becomes_follow ..
  | .call .nothing :: _, none => exact .single (.calls machine _)
  | .call (.restore _) :: _, none => exact .single (.stack machine _)
  | .call (.loop ..) :: _, none =>
      exact becomes_check fun split => .head (.stack machine split.2) (becomes_continueLoop ..)

/-! ## Runs -/

theorem becomes_after (execution : Execution) (count : Nat) :
    Becomes execution.machine (execution.after count).machine := by
  induction count generalizing execution with
  | zero => exact .refl
  | succ count ih => exact (becomes_step execution).trans (ih execution.step)

theorem machine_settle (result : EStateM.Result Fault Machine Unit) (frames : List Frame) :
    (settle result frames).machine = final result := by
  cases result with
  | ok value machine => rfl
  | error fault machine => rfl

/-- The fault and the machine of an attempt are those that the run ends with. -/
theorem attempt_eq_settle (run : Run Unit) (machine : Machine) :
    run.attempt machine =
      ((settle (run machine) []).fault, (settle (run machine) []).machine) := by
  rw [Run.attempt]
  cases run machine <;> rfl

/-- What an execution ends in comes about by small changes. -/
theorem becomes_of_endsIn {execution : Execution} {result : EStateM.Result Fault Machine Unit}
    (ends : EndsIn execution result) : Becomes execution.machine (final result) := by
  obtain ⟨count, ended⟩ := ends
  have all := becomes_after execution count
  rwa [ended count (Nat.le_refl count), machine_settle] at all

/-- Running code makes small changes only. -/
theorem becomes_runCode (machine : Machine) (code : Code) :
    Becomes machine (final (Machine.runCode code machine)) :=
  becomes_of_endsIn (endsIn_runCode machine code)

/-- Running a source text makes small changes only. -/
theorem becomes_runSource (machine : Machine) (name source : String) :
    Becomes machine (final (Machine.runSource name source machine)) :=
  (becomes_read name source machine []).trans
    (becomes_of_endsIn (endsIn_runSource machine name source))

/-- Calling a word makes small changes only. -/
theorem becomes_call (machine : Machine) (site : Location) (word : Word) :
    Becomes machine (final (Machine.call site word machine)) :=
  (becomes_enter site word machine []).trans
    (becomes_of_endsIn (endsIn_call machine site word))

end Execution

namespace Machine

/-- A property that no small change breaks is kept by all of them. -/
theorem Becomes.keeps (property : Machine → Prop)
    (step : ∀ {first second}, Change first second → property first → property second)
    {first last : Machine} (becomes : Becomes first last) (holds : property first) :
    property last := by
  induction becomes with
  | refl => exact holds
  | tail _ change ih => exact step change ih

/-! ## The base of a machine -/

/-- What of a machine no run can change. -/
structure Base where
  words : List Vocabulary
  handlers : List (Layer Word)
  limit : Nat
  fetch : String → Option String

/-- The contexts below the newest, the limit, and the code that the host holds. -/
def base (machine : Machine) : Base :=
  ⟨machine.dictionary.older, machine.handlers.older, machine.limit, machine.host.fetch⟩

theorem Becomes.base_eq {first last : Machine} (becomes : Becomes first last) :
    last.base = first.base := by
  refine becomes.keeps (·.base = first.base) ?_ rfl
  intro before after change same
  cases change <;> exact same

/-- There are contexts to go back to. -/
def Base.Marked (base : Base) : Prop := base.words ≠ [] ∧ base.handlers ≠ []

/-- A machine with contexts to go back to can be reset, and keeps its base. -/
theorem reset_of_marked {machine : Machine} (marked : machine.base.Marked) :
    ∃ fresh, machine.reset = .ok fresh ∧ fresh.base = machine.base := by
  obtain ⟨host, limit, stack, location, calls, ⟨newest, older⟩, ⟨newest', older'⟩,
    diagnostics⟩ := machine
  obtain ⟨words, handlers⟩ := marked
  match older, older', words, handlers with
  | _ :: _, _ :: _, _, _ => exact ⟨_, rfl, rfl⟩

end Machine

end LiveStack
