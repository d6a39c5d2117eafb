import LiveStack.Machine
import LiveStack.Operation

/-!
# Running code

Code runs from left to right: data is pushed, words are called, tokens without a meaning do
nothing. A word's body runs on the shared stack, with the word on top of the call list while it
does. A fault stops the run where it is and leaves the machine as it was then, except for the call
list, which is taken back.

Running is total. How deeply words may still call each other is a number, and each call hands a
smaller one to the code it runs; code itself is finite, and so is every list that a quotation is
applied along.
-/

namespace LiveStack

/-- A run changes a machine, and gives a result or a fault. -/
abbrev Run := EStateM Fault Machine

/-- Call a word from a place. -/
abbrev Caller := Location → Word → Run Unit

namespace Run

variable {α : Type}

/-- Run on a machine: the fault that stopped the run, if any, and the machine after it. -/
def attempt (run : Run α) (machine : Machine) : Option Fault × Machine :=
  match run machine with
  | .ok _ machine => (none, machine)
  | .error fault machine => (some fault, machine)

/-- Stop, for a cause met here and now. -/
def fail (cause : Cause) : Run α := do
  throw ((← get).fault cause)

/-- The result, or a stop for its cause. -/
def ofExcept : Except Cause α → Run α
  | .ok result => pure result
  | .error cause => fail cause

/-- Push a value. -/
def push (value : Value) : Run Unit :=
  modify fun machine => { machine with stack := value :: machine.stack }

/-- Push values in order, so that the last ends on top. -/
def pushAll (values : List Value) : Run Unit :=
  values.forM push

/-- Take the top value off. -/
def pop : Run Value := do
  let machine ← get
  match machine.stack with
  | value :: stack =>
      set { machine with stack }
      return value
  | [] =>
      let word := (machine.calls.head?.map (·.word)).getD ""
      fail (.stackUnderflow word 1 0)

/-- Take `count` values off a stack, the deepest first, before the values `taken` already. -/
def split? : (count : Nat) → (taken stack : List Value) → Option (List Value × List Value)
  | 0, taken, stack => some (taken, stack)
  | count + 1, taken, value :: stack => split? count (value :: taken) stack
  | _ + 1, _, [] => none

/-- Take the values that the word `name` needs, the deepest first. If there are too few, none is
taken. -/
def takeArguments (name : String) (count : Nat) : Run (List Value) := do
  let machine ← get
  match split? count [] machine.stack with
  | some (taken, stack) =>
      set { machine with stack }
      return taken
  | none => fail (.stackUnderflow name count machine.stack.length)

/-- Note the place of an instruction that has one. -/
def visit (location : Option Location) : Run Unit :=
  modify fun machine => { machine with location := location.or machine.location }

/-- Where a call is made from: the instruction's own place, else the last one known. Without either
the call comes from the program itself; `unspecified` stands for the line of its text that makes
the call. -/
def callSite (location : Option Location) : Run Location := do
  return (location.or (← get).location).getD .unspecified

/-- Run `body` with `call` on top of the call list, and take it off again however that ends. -/
def within (call : Call) (body : Run Unit) : Run Unit := fun machine =>
  match body { machine with location := some call.site, calls := call :: machine.calls } with
  | .ok result machine => .ok result { machine with calls := machine.calls.tail }
  | .error fault machine => .error fault { machine with calls := machine.calls.tail }

end Run

open Run

/-- Run code, calling its words with `call`. -/
def runCode (call : Caller) : List Instruction → Run Unit
  | [] => pure ()
  | instruction :: rest => do
      visit instruction.location
      match instruction.element with
      | .literal _ value => push value
      | .quote code => push (.list code)
      | .word word => call (← callSite instruction.location) word
      | .unknown _ => pure ()
      runCode call rest

/-- Read the text called `name` with the words known now, and run it. -/
def runSource (call : Caller) (name source : String) : Run Unit := do
  let machine ← get
  let (code, faults) := Code.ofSource machine.bind name source
  set { machine with diagnostics := machine.diagnostics ++ faults }
  runCode call code

/-- Run a quotation on the given values, the last on top, and take its result off. -/
def applyTo (call : Caller) (quotation : Code) (values : List Value) : Run Value := do
  pushAll values
  runCode call quotation
  pop

/-- The value of a list item, or a stop. -/
def itemValue (item : Instruction) : Run Value := ofExcept item.value

/-- The list of the results of a quotation on the values of a list. -/
def mapItems (call : Caller) (quotation items : Code) : Run Code := do
  let results ← items.foldlM (fun (results : Code) item => do
    let result ← applyTo call quotation [← itemValue item]
    return .made (.ofValue result) :: results) []
  return results.reverse

/-- The items of a list whose values a quotation finds true, as they stand in it. -/
def filterItems (call : Caller) (quotation items : Code) : Run Code := do
  let kept ← items.foldlM (fun (kept : Code) item => do
    let result ← applyTo call quotation [← itemValue item]
    return if result.truth then item :: kept else kept) []
  return kept.reverse

/-- The values of a list combined from first to last: the quotation takes an item's value and,
above it, the result so far. -/
def foldItems (call : Caller) (quotation : Code) (initial : Value) (items : Code) : Run Value :=
  items.foldlM (fun result item => do
    applyTo call quotation [← itemValue item, result]) initial

/-- Run a built-in word on the values it has taken. -/
def runPrimitive (call : Caller) : Primitive → List Value → Run Unit
  | .operation op, values => do
      pushAll (← ofExcept (op.apply values))
  | .dip, [x, quotation] => do
      runCode call (← ofExcept quotation.asList)
      push x
  | .map, [list, quotation] => do
      let items ← ofExcept list.asList
      push (.list (← mapItems call (← ofExcept quotation.asList) items))
  | .filter, [list, quotation] => do
      let items ← ofExcept list.asList
      push (.list (← filterItems call (← ofExcept quotation.asList) items))
  | .fold, [list, initial, quotation] => do
      let items ← ofExcept list.asList
      push (← foldItems call (← ofExcept quotation.asList) initial items)
  | .words, [] => do
      push (.list (← get).wordList)
  | .define, [quotation, name] => do
      let body ← ofExcept quotation.asList
      let name ← ofExcept name.asString
      match nameProblem? name with
      | some reason => fail (.invalidName name reason)
      | none => modify (·.define name body)
  | .eval, [.string source] => runSource call "<eval>" source
  | .eval, [.list code] => runCode call code
  | .eval, [value] => fail (.typeMismatch "string or list" value.describe)
  | .alert, [value] =>
      modify fun machine =>
        { machine with
          host := { machine.host with alerts := machine.host.alerts.push value.render } }
  | .use, [value] => do
      let name := value.render
      let machine ← get
      set { machine with
        host := { machine.host with requests := machine.host.requests.push name } }
      match machine.host.fetch name with
      | some source => runSource call name source
      | none => fail (.unknownCode name)
  | primitive, values => fail (.stackUnderflow primitive.name primitive.arity values.length)

/-- Run a word's body. -/
def runHandler (call : Caller) (word : Word) : Run Unit :=
  match word.handler with
  | .primitive primitive => do
      let values ← takeArguments word.name primitive.arity
      runPrimitive call primitive values
  | .secondary body => runCode call body

/-- How many calls share one thread of the system. -/
def callsPerThread : Nat := 1024

/-- The result of `body`. On some levels it is computed on a thread of its own, so that the depth
of calls is bounded by the machine's limit and not by the room on one thread's stack. -/
def roomFor {α : Type} (level : Nat) (body : Unit → α) : α :=
  if level % callsPerThread = callsPerThread - 1 then (Task.spawn body .dedicated).get else body ()

/-- Where a body is computed makes no difference. -/
@[simp] theorem roomFor_eq {α : Type} (level : Nat) (body : Unit → α) :
    roomFor level body = body () := by
  unfold roomFor
  split <;> rfl

/-- Call a word, with room for `depth` calls inside each other. -/
def callWord : (depth : Nat) → Caller
  | 0, _, _ => do
      fail (.callDepthExceeded (← get).limit)
  | depth + 1, site, word => fun machine =>
      roomFor depth fun _ =>
        within ⟨word.name, site⟩ (runHandler (callWord depth) word) machine

namespace Machine

/-- How many calls inside each other the machine has room for. -/
def room (machine : Machine) : Nat := machine.limit - machine.calls.length

/-- Call a word from a place. -/
def call (site : Location) (word : Word) : Run Unit := do
  callWord (← get).room site word

/-- Run code. -/
def runCode (code : Code) : Run Unit := do
  LiveStack.runCode (callWord (← get).room) code

/-- Read and run the text called `name`. Problems of reading stop nothing; they gather in the
machine. -/
def runSource (name source : String) : Run Unit := do
  LiveStack.runSource (callWord (← get).room) name source

end Machine

end LiveStack
