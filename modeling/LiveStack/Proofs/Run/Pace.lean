import LiveStack.Proofs.Run.Refusals
import LiveStack.Proofs.Run.Termination

/-!
# Two runs at one pace

A run reads little of its machine: the stack, what the names mean, the words there are and the code
that the host holds. The call list and the place it only notes down, and it compares the number of
open calls with the limit. So two runs of the same code whose machines agree on what is read go step
by step at the same pace, in the same frames, unless the first has no room left for a call.

A `Pace` says how the machines of two such runs compare, and carries the proofs that whatever a run
does to both of them keeps this. The step is gone through once, here; what two runs have in common
in the end then follows for every pace.
-/

namespace LiveStack

open Run

/-! ## Causes other than the depth of the calls -/

/-- If the check fails, it is not for the depth of the calls. -/
def DepthFree {α : Type} (checked : Except Cause α) : Prop :=
  ∀ cause, checked = .error cause → ¬ cause.IsOverrun

/-- A cause that lies in the values is not the depth of the calls. -/
theorem RefusesOnly.depthFree {α : Type} {checked : Except Cause α}
    (refuses : RefusesOnly checked) : DepthFree checked := by
  rintro cause failed ⟨limit, rfl⟩
  cases refuses _ failed

/-- The work is not to stop for the depth of the calls. -/
def Work.DepthFree (work : Work) : Prop :=
  ∀ results, work = .give results → LiveStack.DepthFree results

/-- No built-in word stops for the depth of the calls before it runs any code. -/
theorem Primitive.work_depthFree (primitive : Primitive) (values : List Value) :
    (primitive.work values).DepthFree := by
  intro results given
  rcases refuses_work given with refuses | ⟨rfl, overlong⟩
  · exact refuses.depthFree
  · -- The panic of `range` is another one.
    cases given
    rw [LiveStack.DepthFree, Operation.range_of_overlong overlong]
    rintro cause ⟨⟩
    exact nofun

/-! ## What a run reads and does -/

namespace Machine

/-- What a run reads of its machine, besides the place and the call list. -/
structure View where
  stack : List Value
  bind : Binding
  words : Code
  fetch : String → Option String

/-- What a run can read of this machine. -/
def view (machine : Machine) : View :=
  ⟨machine.stack, machine.bind, machine.wordList, machine.host.fetch⟩

/-- A thing that a run does to its machine, besides opening and closing calls. -/
inductive Act where
  | stack (stack : List Value)
  | visit (place : Option Location)
  | note (faults : List Fault)
  | alert (message : String)
  | request (name : String)
  | define (name : String) (body : Code)

/-- The machine to which this has been done. -/
def Act.on (machine : Machine) : Act → Machine
  | .stack values => { machine with stack := values }
  | .visit place => { machine with location := place.or machine.location }
  | .note faults => { machine with diagnostics := machine.diagnostics ++ faults }
  | .alert message =>
      { machine with host := { machine.host with alerts := machine.host.alerts.push message } }
  | .request name =>
      { machine with host := { machine.host with requests := machine.host.requests.push name } }
  | .define name body => machine.define name body

/-- The place that a word is called from, when nothing else is known of it. -/
def site (machine : Machine) : Location := machine.location.getD .unspecified

/-- The machine inside a call. -/
def opened (call : Call) (machine : Machine) : Machine :=
  { machine with location := some call.site, calls := call :: machine.calls }

/-- The machine behind its innermost call. -/
def returned (machine : Machine) : Machine :=
  { machine with calls := machine.calls.tail }

/-- The word whose call is the innermost. -/
def caller (machine : Machine) : Option String := machine.calls.head?.map (·.word)

end Machine

/-! ## Paces -/

open Machine (Act)

/-- How the machines and the faults of two runs at one pace compare. -/
structure Pace where
  /-- The machines, when so many of the calls are open that both runs have opened. -/
  machines : Nat → Machine → Machine → Prop
  /-- The faults that the runs stop for. -/
  faults : Fault → Fault → Prop
  /-- The faults of the first run for want of room, behind which nothing is compared. -/
  overruns : Fault → Prop
  view_eq {calls : Nat} {first second : Machine} (here : machines calls first second) :
    second.view = first.view
  act {calls : Nat} {first second : Machine} (here : machines calls first second) (act : Act) :
    machines calls (act.on first) (act.on second)
  opened {calls : Nat} {first second : Machine} (here : machines calls first second)
    (room : first.calls.length < first.limit) (name : String) :
    machines (calls + 1) (first.opened ⟨name, first.site⟩) (second.opened ⟨name, second.site⟩)
  returned {calls : Nat} {first second : Machine} (here : machines (calls + 1) first second) :
    machines calls first.returned second.returned
  caller_eq {calls : Nat} {first second : Machine} (here : machines (calls + 1) first second) :
    second.caller = first.caller
  room {calls : Nat} {first second : Machine} (here : machines calls first second)
    (room : first.calls.length < first.limit) : second.calls.length < second.limit
  fault {calls : Nat} {first second : Machine} (here : machines calls first second) {cause : Cause}
    (other : ¬ cause.IsOverrun) : faults (first.fault cause) (second.fault cause)
  overrun {calls : Nat} {first second : Machine} (here : machines calls first second)
    (full : first.limit ≤ first.calls.length) :
    overruns (first.fault (.callDepthExceeded first.limit))

/-- How many calls are open, when so many are open under the frames. -/
def openCalls (under : Nat) : List Frame → Nat
  | [] => under
  | .code _ :: frames => openCalls under frames
  | .call _ :: frames => openCalls under frames + 1

namespace Pace

variable (pace : Pace) (under : Nat)

/-- Executions at this pace: the first has stopped for want of room, or both have the same left to
do, and either go on or have stopped. -/
inductive Beside : Execution → Execution → Prop
  | overrun {first second : Execution} {fault : Fault} (stopped : first.fault = some fault)
      (overruns : pace.overruns fault) : Beside first second
  | going {first second : Machine} {frames : List Frame}
      (machines : pace.machines (openCalls under frames) first second) :
      Beside ⟨first, frames, none⟩ ⟨second, frames, none⟩
  | stopped {first second : Machine} {frames : List Frame} {fault fault' : Fault}
      (machines : pace.machines (openCalls under frames) first second)
      (faults : pace.faults fault fault') :
      Beside ⟨first, frames, some fault⟩ ⟨second, frames, some fault'⟩

variable {pace under} {first second : Machine} {frames : List Frame}

theorem stack_eq {calls : Nat} (here : pace.machines calls first second) :
    second.stack = first.stack :=
  congrArg Machine.View.stack (pace.view_eq here)

theorem withStack {calls : Nat} (here : pace.machines calls first second) (stack : List Value) :
    pace.machines calls { first with stack } { second with stack } :=
  pace.act here (.stack stack)

open Execution

/-! ## One step -/

theorem beside_check {α : Type} {checked : Except Cause α} (free : DepthFree checked)
    (here : pace.machines (openCalls under frames) first second) {next next' : α → Execution}
    (go : ∀ value, pace.Beside under (next value) (next' value)) :
    pace.Beside under (check checked first frames next) (check checked second frames next') := by
  cases checked with
  | error cause => exact .stopped here (pace.fault here (free cause rfl))
  | ok value => exact go value

/-- Both read the same code from a text. -/
theorem beside_read (here : pace.machines (openCalls under frames) first second)
    (name source : String) :
    pace.Beside under (read name source first frames) (read name source second frames) := by
  have bind : second.bind = first.bind := congrArg Machine.View.bind (pace.view_eq here)
  rw [Execution.read, Execution.read, bind]
  exact .going (pace.act here (.note _))

section
variable (here : pace.machines (openCalls under frames + 1) first second)
include here

theorem beside_continueLoop (loop : Loop) (quotation items : Code) :
    pace.Beside under (continueLoop loop quotation items first frames)
      (continueLoop loop quotation items second frames) := by
  cases items with
  | nil =>
      rw [continueLoop, continueLoop, stack_eq here]
      exact .going (withStack here _)
  | cons item rest =>
      rw [continueLoop, continueLoop, stack_eq here]
      exact beside_check (RefusesOnly.value item).depthFree here fun _ => .going (withStack here _)

theorem beside_perform {work : Work} (free : work.DepthFree) :
    pace.Beside under (perform work first frames) (perform work second frames) := by
  have inside : pace.machines (openCalls under (.call .nothing :: frames)) first second := here
  cases work with
  | give results =>
      rw [perform, perform, stack_eq here]
      exact beside_check (free results rfl) here fun _ => .going (withStack here _)
  | dip x quotation => exact beside_check (RefusesOnly.asList _).depthFree here fun _ => .going here
  | loop loop list quotation =>
      exact beside_check (RefusesOnly.asList _).depthFree here fun items =>
        beside_check (RefusesOnly.asList _).depthFree here fun code =>
          beside_continueLoop here loop code items
  | words =>
      have words : second.wordList = first.wordList :=
        congrArg Machine.View.words (pace.view_eq here)
      rw [perform, perform, stack_eq here, words]
      exact .going (withStack here _)
  | define quotation name =>
      refine beside_check (RefusesOnly.asList _).depthFree here fun body =>
        beside_check (RefusesOnly.asString _).depthFree here fun text => ?_
      cases nameProblem? text with
      | some reason => exact .stopped here (pace.fault here (by rintro ⟨_, ⟨⟩⟩))
      | none => exact .going (pace.act here (.define text body))
  | code code => exact .going here
  | source source => exact beside_read inside "<eval>" source
  | alert value => exact .going (pace.act here (.alert value.render))
  | use value =>
      have fetch : second.host.fetch = first.host.fetch :=
        congrArg Machine.View.fetch (pace.view_eq here)
      have asked := pace.act inside (.request value.render)
      rw [perform, perform, fetch]
      cases first.host.fetch value.render with
      | some source => exact beside_read asked value.render source
      | none => exact .stopped asked (pace.fault asked (by rintro ⟨_, ⟨⟩⟩))

theorem beside_begin (word : Word) :
    pace.Beside under (begin word first frames) (begin word second frames) := by
  rw [begin, begin]
  cases word.handler with
  | secondary body => exact .going here
  | primitive primitive =>
      have same : arguments word.name primitive.arity second =
          arguments word.name primitive.arity first := by
        rw [arguments, arguments, stack_eq here]
      simp only [same]
      exact beside_check (RefusesOnly.arguments _ _ _).depthFree here fun split =>
        beside_perform (withStack here split.2) (primitive.work_depthFree split.1)

/-- The same value is on top of the stack, or missed by the same word. -/
theorem top_eq : top second = top first := by
  have caller : second.calls.head?.map (·.word) = first.calls.head?.map (·.word) :=
    pace.caller_eq here
  rw [top, top, stack_eq here, caller]

end

section
variable (here : pace.machines (openCalls under frames) first second)
include here

/-- A word is called by both, unless the first has no room for the call. -/
theorem beside_enter (word : Word) :
    pace.Beside under (enter first.site word first frames)
      (enter second.site word second frames) := by
  by_cases full : first.limit ≤ first.calls.length
  · rw [enter, if_pos full]
    exact .overrun rfl (pace.overrun here full)
  · have room := Nat.not_le.1 full
    rw [enter, if_neg full, enter, if_neg (Nat.not_le.2 (pace.room here room))]
    exact beside_begin (pace.opened here room word.name) word

theorem beside_follow (instruction : Instruction) :
    pace.Beside under (follow instruction first frames) (follow instruction second frames) := by
  obtain ⟨place, element⟩ := instruction
  have visited := pace.act here (.visit place)
  cases element with
  | literal text value =>
      rw [follow, follow, stack_eq here]
      exact .going (withStack visited _)
  | quote code =>
      rw [follow, follow, stack_eq here]
      exact .going (withStack visited _)
  | word word =>
      have twice (known : Option Location) : place.or (place.or known) = place.or known := by
        cases place <;> rfl
      rw [follow, follow]
      simp only [twice]
      exact beside_enter visited word
  | unknown text => exact .going visited

end

/-- Executions at one pace are at that pace after one step more. -/
theorem beside_step (first second : Execution) (beside : pace.Beside under first second) :
    pace.Beside under first.step second.step := by
  cases beside with
  | @overrun first second fault stopped overruns =>
      -- The fault is handed on until nothing is left to do.
      obtain ⟨machine, frames, _⟩ := first
      cases stopped
      cases frames with
      | nil => exact .overrun rfl overruns
      | cons frame frames => cases frame <;> exact .overrun rfl overruns
  | @going first second frames here =>
      match frames with
      | [] => exact .going here
      | .code [] :: _ => exact .going here
      | .code (instruction :: rest) :: frames =>
          have here : pace.machines (openCalls under (.code rest :: frames)) first second := here
          exact beside_follow here instruction
      | .call .nothing :: _ => exact .going (pace.returned here)
      | .call (.restore x) :: _ =>
          rw [step, step]
          simp only [stack_eq here]
          exact .going (withStack here _)
      | .call (.loop loop quotation item rest) :: frames =>
          have inside : pace.machines (openCalls under (.call .nothing :: frames)) first second :=
            here
          rw [step, step]
          simp only [top_eq here]
          exact beside_check (RefusesOnly.top first).depthFree inside fun split =>
            beside_continueLoop (withStack here split.2) (loop.gather item split.1) quotation rest
  | @stopped first second frames fault fault' here faults =>
      cases frames with
      | nil => exact .stopped here faults
      | cons frame frames =>
          cases frame with
          | code rest => exact .stopped here faults
          | call pending => exact .stopped (pace.returned here) faults

/-! ## Runs -/

/-- Results of runs at this pace: the first run has stopped for want of room, or both have ended in
the same way, on machines that compare. -/
inductive Ends (pace : Pace) (under : Nat) :
    EStateM.Result Fault Machine Unit → EStateM.Result Fault Machine Unit → Prop
  | overrun {fault : Fault} {last : Machine} {result : EStateM.Result Fault Machine Unit}
      (overruns : pace.overruns fault) : Ends pace under (.error fault last) result
  | ok {last last' : Machine} (machines : pace.machines under last last') :
      Ends pace under (.ok () last) (.ok () last')
  | error {fault fault' : Fault} {last last' : Machine}
      (machines : pace.machines under last last') (faults : pace.faults fault fault') :
      Ends pace under (.error fault last) (.error fault' last')

variable {result result' : EStateM.Result Fault Machine Unit}

/-- What follows results that compare are executions at the same pace. -/
theorem Ends.beside (ends : pace.Ends (openCalls under frames) result result') :
    pace.Beside under (settle result frames) (settle result' frames) := by
  cases ends with
  | overrun overruns => exact .overrun rfl overruns
  | ok machines => exact .going machines
  | error machines faults => exact .stopped machines faults

/-- Executions at one pace end in results that compare. -/
theorem ends_of_beside {first second : Execution} (beside : pace.Beside under first second)
    (ends : EndsIn first result) (ends' : EndsIn second result') :
    pace.Ends under result result' := by
  have last := related_settle beside_step beside ends ends'
  -- Executions beside each other are both going on or both stopped, or the first is overrun.
  cases result with
  | ok _ machine =>
      cases result' with
      | ok _ machine' =>
          cases last with
          | overrun stopped => cases stopped
          | going machines => exact .ok machines
      | error fault' machine' =>
          cases last with
          | overrun stopped => cases stopped
  | error fault machine =>
      cases result' with
      | ok _ machine' =>
          cases last with
          | overrun stopped overruns =>
              cases stopped
              exact .overrun overruns
      | error fault' machine' =>
          cases last with
          | overrun stopped overruns =>
              cases stopped
              exact .overrun overruns
          | stopped machines faults => exact .error machines faults

theorem ends_runCode (here : pace.machines under first second) (code : Code) :
    pace.Ends under (Machine.runCode code first) (Machine.runCode code second) :=
  have start : pace.Beside under (ofCode first code) (ofCode second code) := .going here
  ends_of_beside start (endsIn_runCode first code) (endsIn_runCode second code)

theorem ends_runSource (here : pace.machines under first second) (name source : String) :
    pace.Ends under (Machine.runSource name source first) (Machine.runSource name source second) :=
  have here : pace.machines (openCalls under []) first second := here
  ends_of_beside (beside_read here name source) (endsIn_runSource first name source)
    (endsIn_runSource second name source)

end Pace

end LiveStack
