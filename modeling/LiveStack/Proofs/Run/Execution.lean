import Mathlib.Logic.Function.Iterate
import LiveStack.Run

/-!
# Runs in single steps

An `Execution` is a run that is under way: the machine, what is left to do, and the fault that is
unwinding it, if there is one. What is left to do is a list of frames, the innermost first. A frame
is either the rest of some code, or an open call with what is left to do in it.

`Execution.step` does one thing at a time. It knows no measure: the only thing that can stop it
from going on is the check of the call list against the machine's limit, made when a word is
called. That every execution is over after finitely many steps is a theorem about it.
-/

namespace LiveStack

open Run

/-- A built-in word going along a list, with what it has gathered so far. -/
inductive Loop where
  | map (results : Code)
  | filter (kept : Code)
  | fold (result : Value)

namespace Loop

/-- The values that the quotation is run on, for an item of this value. -/
def arguments : Loop → Value → List Value
  | .map _, value | .filter _, value => [value]
  | .fold result, value => [value, result]

/-- Take in the result of the quotation on an item. -/
def gather (item : Instruction) (result : Value) : Loop → Loop
  | .map results => .map (.made (.ofValue result) :: results)
  | .filter kept => .filter (if result.truth then item :: kept else kept)
  | .fold _ => .fold result

/-- The value that is left on the stack in the end. -/
def outcome : Loop → Value
  | .map results => .list results.reverse
  | .filter kept => .list kept.reverse
  | .fold result => result

end Loop

/-- What is left to do in an open call, when the code above it has run. -/
inductive Pending where
  | nothing
  /-- Put back the value that was set aside. -/
  | restore (x : Value)
  /-- Take the result of the quotation on `item`, and go on with the items after it. -/
  | loop (loop : Loop) (quotation : Code) (item : Instruction) (rest : Code)

/-- A part of what is left to do. -/
inductive Frame where
  | code (rest : Code)
  | call (pending : Pending)

/-- A run that is under way. -/
structure Execution where
  machine : Machine
  frames : List Frame
  /-- The fault that is being handed on to the frames. -/
  fault : Option Fault := none

/-- The work that a built-in word has before it, once it has taken its values. -/
inductive Work where
  /-- Push these values, or stop for this cause. -/
  | give (results : Except Cause (List Value))
  | dip (x quotation : Value)
  | loop (loop : Loop) (list quotation : Value)
  /-- Push the list of all words. -/
  | words
  | define (quotation name : Value)
  | code (code : Code)
  | source (source : String)
  | alert (value : Value)
  | use (value : Value)

/-- The work of a built-in word with the values it has taken. -/
def Primitive.work : Primitive → List Value → Work
  | .operation op, values => .give (op.apply values)
  | .dip, [x, quotation] => .dip x quotation
  | .map, [list, quotation] => .loop (.map []) list quotation
  | .filter, [list, quotation] => .loop (.filter []) list quotation
  | .fold, [list, initial, quotation] => .loop (.fold initial) list quotation
  | .words, [] => .words
  | .define, [quotation, name] => .define quotation name
  | .eval, [.list code] => .code code
  | .eval, [.string source] => .source source
  | .eval, [value] => .give (.error (.typeMismatch "string or list" value.describe))
  | .alert, [value] => .alert value
  | .use, [value] => .use value
  | primitive, values =>
      .give (.error (.stackUnderflow primitive.name primitive.arity values.length))

namespace Execution

/-- Go on with what a check gives, or stop for its cause. -/
def check {α : Type} (checked : Except Cause α) (machine : Machine) (frames : List Frame)
    (next : α → Execution) : Execution :=
  match checked with
  | .ok value => next value
  | .error cause => ⟨machine, frames, some (machine.fault cause)⟩

/-- The top value of the stack, and the stack under it. -/
def top (machine : Machine) : Except Cause (Value × List Value) :=
  match machine.stack with
  | value :: stack => .ok (value, stack)
  | [] => .error (.stackUnderflow ((machine.calls.head?.map (·.word)).getD "") 1 0)

/-- The values that a built-in word takes, and the stack under them. -/
def arguments (name : String) (count : Nat) (machine : Machine) :
    Except Cause (List Value × List Value) :=
  match split? count [] machine.stack with
  | some split => .ok split
  | none => .error (.stackUnderflow name count machine.stack.length)

/-- Take up a loop at its next item, or end it. -/
def continueLoop (loop : Loop) (quotation : Code) (items : Code) (machine : Machine)
    (frames : List Frame) : Execution :=
  match items with
  | [] => ⟨{ machine with stack := loop.outcome :: machine.stack }, .call .nothing :: frames, none⟩
  | item :: rest =>
      check item.value machine (.call .nothing :: frames) fun value =>
        ⟨{ machine with stack := (loop.arguments value).reverse ++ machine.stack },
          .code quotation :: .call (.loop loop quotation item rest) :: frames, none⟩

/-- Read the text called `name`, and go on with its code. -/
def read (name source : String) (machine : Machine) (frames : List Frame) : Execution :=
  let (code, faults) := Code.ofSource machine.bind name source
  ⟨{ machine with diagnostics := machine.diagnostics ++ faults }, .code code :: frames, none⟩

/-- Begin the work of a built-in word inside its call. What takes no other code is done at once. -/
def perform (work : Work) (machine : Machine) (frames : List Frame) : Execution :=
  let opened := .call .nothing :: frames
  match work with
  | .give results =>
      check results machine opened fun values =>
        ⟨{ machine with stack := values.reverse ++ machine.stack }, opened, none⟩
  | .dip x quotation =>
      check quotation.asList machine opened fun code =>
        ⟨machine, .code code :: .call (.restore x) :: frames, none⟩
  | .loop loop list quotation =>
      check list.asList machine opened fun items =>
        check quotation.asList machine opened fun code =>
          continueLoop loop code items machine frames
  | .words => ⟨{ machine with stack := .list machine.wordList :: machine.stack }, opened, none⟩
  | .define quotation name =>
      check quotation.asList machine opened fun body =>
        check name.asString machine opened fun name =>
          match nameProblem? name with
          | some reason => ⟨machine, opened, some (machine.fault (.invalidName name reason))⟩
          | none => ⟨machine.define name body, opened, none⟩
  | .code code => ⟨machine, .code code :: opened, none⟩
  | .source source => read "<eval>" source machine opened
  | .alert value =>
      ⟨{ machine with
          host := { machine.host with alerts := machine.host.alerts.push value.render } },
        opened, none⟩
  | .use value =>
      let name := value.render
      let asked := { machine with
        host := { machine.host with requests := machine.host.requests.push name } }
      match machine.host.fetch name with
      | some source => read name source asked opened
      | none => ⟨asked, opened, some (asked.fault (.unknownCode name))⟩

/-- Begin what a word does, inside its call. -/
def begin (word : Word) (machine : Machine) (frames : List Frame) : Execution :=
  match word.handler with
  | .secondary body => ⟨machine, .code body :: .call .nothing :: frames, none⟩
  | .primitive primitive =>
      check (arguments word.name primitive.arity machine) machine (.call .nothing :: frames)
        fun (values, stack) => perform (primitive.work values) { machine with stack } frames

/-- Call a word from a place, unless the call list is as long as the machine allows. -/
def enter (site : Location) (word : Word) (machine : Machine) (frames : List Frame) : Execution :=
  if machine.limit ≤ machine.calls.length then
    ⟨machine, frames, some (machine.fault (.callDepthExceeded machine.limit))⟩
  else
    begin word { machine with
      location := some site, calls := ⟨word.name, site⟩ :: machine.calls } frames

/-- Follow one instruction. -/
def follow (instruction : Instruction) (machine : Machine) (frames : List Frame) : Execution :=
  let visited := { machine with location := instruction.location.or machine.location }
  match instruction.element with
  | .literal _ value => ⟨{ visited with stack := value :: visited.stack }, frames, none⟩
  | .quote code => ⟨{ visited with stack := .list code :: visited.stack }, frames, none⟩
  | .word word =>
      enter ((instruction.location.or visited.location).getD .unspecified) word visited frames
  | .unknown _ => ⟨visited, frames, none⟩

/-- Do the next thing that is left to do. A fault takes the frames off one by one, and the open
calls with them. -/
def step (execution : Execution) : Execution :=
  let machine := execution.machine
  match execution.frames, execution.fault with
  | [], _ => execution
  | .code _ :: frames, some fault => ⟨machine, frames, some fault⟩
  | .call _ :: frames, some fault =>
      ⟨{ machine with calls := machine.calls.tail }, frames, some fault⟩
  | .code [] :: frames, none => ⟨machine, frames, none⟩
  | .code (instruction :: rest) :: frames, none =>
      follow instruction machine (.code rest :: frames)
  | .call .nothing :: frames, none =>
      ⟨{ machine with calls := machine.calls.tail }, frames, none⟩
  | .call (.restore x) :: frames, none =>
      ⟨{ machine with stack := x :: machine.stack }, .call .nothing :: frames, none⟩
  | .call (.loop loop quotation item rest) :: frames, none =>
      check (top machine) machine (.call .nothing :: frames) fun (result, stack) =>
        continueLoop (loop.gather item result) quotation rest { machine with stack } frames

/-- The execution after so many steps. -/
def after (execution : Execution) (count : Nat) : Execution := step^[count] execution

/-- Nothing is left to do. -/
def isOver (execution : Execution) : Prop := execution.frames = []

/-- The execution of code. -/
def ofCode (machine : Machine) (code : Code) : Execution := ⟨machine, [.code code], none⟩

/-- The execution of the text called `name`. -/
def ofSource (machine : Machine) (name source : String) : Execution := read name source machine []

/-- The execution of a word called from a place. -/
def ofWord (machine : Machine) (site : Location) (word : Word) : Execution :=
  enter site word machine []

/-- What a run looks like once it has ended, with these frames left to do. -/
def settle (result : EStateM.Result Fault Machine Unit) (frames : List Frame) : Execution :=
  match result with
  | .ok _ machine => ⟨machine, frames, none⟩
  | .error fault machine => ⟨machine, frames, some fault⟩

/-- One execution comes to another. -/
def Leads (first last : Execution) : Prop := ∃ count, first.after count = last

end Execution

end LiveStack
