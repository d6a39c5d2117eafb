import LiveStack.Proofs.Run.Abreast
import LiveStack.Proofs.Run.Heredity

/-!
# Words are bound when code is read

Code is closed if nothing that it can come to call reads what the words mean: neither a word in it,
nor one in a list in it, nor one in the body of a word that is bound in it. Closed code, run on a
stack of closed values, does the same whatever the dictionary says by now, since a word carries its
meaning along. And it stays with closed code: what it makes of closed values is closed again.
-/

namespace LiveStack

open Run

/-! ## Closed code -/

mutual

/-- All code in the value is closed. -/
def Value.Closed : Value → Prop
  | .int _ | .float _ | .bool _ | .string _ => True
  | .list code => Code.Closed code

/-- What the element calls or pushes is closed. -/
def Element.Closed : Element → Prop
  | .word word => word.Closed
  | .literal _ value => value.Closed
  | .quote code => Code.Closed code
  | .unknown _ => True

/-- The element of the instruction is closed. -/
def Instruction.Closed : Instruction → Prop
  | ⟨_, element⟩ => element.Closed

/-- What the word does never reads what the words mean. -/
def Handler.Closed : Handler → Prop
  | .primitive primitive => primitive.isReflective = false
  | .secondary body => Code.Closed body

/-- What the word does never reads what the words mean. -/
def Word.Closed : Word → Prop
  | ⟨_, handler⟩ => handler.Closed

/-- No word in the code, in a list in it, or in the body of a word in it, reads what the words
mean. -/
def Code.Closed : List Instruction → Prop
  | [] => True
  | instruction :: rest => instruction.Closed ∧ Code.Closed rest

end

theorem Code.closed_iff {code : Code} :
    Code.Closed code ↔ ∀ instruction ∈ code, instruction.Closed := by
  induction code with
  | nil => exact ⟨fun _ _ mem => absurd mem List.not_mem_nil, fun _ => trivial⟩
  | cons instruction rest ih => rw [Code.Closed, ih, List.forall_mem_cons]

theorem Element.closed_ofValue {value : Value} : (Element.ofValue value).Closed ↔ value.Closed := by
  cases value <;> exact Iff.rfl

/-- Every value in the list is closed. -/
def Value.AllClosed (values : List Value) : Prop := ∀ value ∈ values, value.Closed

namespace Value.AllClosed

theorem nil : AllClosed [] := fun _ mem => absurd mem List.not_mem_nil

theorem cons {value : Value} {values : List Value} (first : value.Closed)
    (rest : AllClosed values) : AllClosed (value :: values) :=
  List.forall_mem_cons.2 ⟨first, rest⟩

theorem append {values values' : List Value} (front : AllClosed values)
    (back : AllClosed values') : AllClosed (values ++ values') := by
  intro value mem
  rcases List.mem_append.1 mem with mem | mem
  · exact front value mem
  · exact back value mem

theorem reverse {values : List Value} (all : AllClosed values) : AllClosed values.reverse :=
  fun value mem => all value (List.mem_reverse.1 mem)

end Value.AllClosed

/-! ## What closed values pass on -/

theorem Value.asList_gives {value : Value} (closed : value.Closed) :
    Gives Code.Closed value.asList := by
  cases value with
  | list code => exact .ok closed
  | int | float | bool | string => exact .error _

theorem Instruction.value_gives {item : Instruction} (closed : item.Closed) :
    Gives Value.Closed item.value := by
  obtain ⟨location, element⟩ := item
  cases element with
  | literal text value => exact .ok closed
  | quote code => exact .ok closed
  | word word => exact .error _
  | unknown text => exact .error _

/-- Closed values make closed values. -/
theorem Value.closed_hereditary : Hereditary Value.Closed Instruction.Closed where
  atom := by
    intro value atom
    cases value with
    | list code => exact absurd rfl (atom code)
    | _ => trivial
  list := Code.closed_iff
  made := Element.closed_ofValue.2
  value := Instruction.value_gives

/-! ## Work that is left to do -/

/-- What a loop has gathered is closed. -/
def Loop.Closed : Loop → Prop
  | .map results => Code.Closed results
  | .filter kept => Code.Closed kept
  | .fold result => result.Closed

/-- What an open call still runs, and what it puts back, is closed. -/
def Pending.Closed : Pending → Prop
  | .nothing => True
  | .restore x => x.Closed
  | .loop progress quotation item rest =>
      progress.Closed ∧ Code.Closed quotation ∧ item.Closed ∧ Code.Closed rest

theorem Pending.closed_nothing : Pending.Closed .nothing := trivial

/-- What is left to do is closed. -/
def Frame.Closed : Frame → Prop
  | .code rest => Code.Closed rest
  | .call pending => pending.Closed

/-- The work is on closed values, and reads neither what the words mean nor what the host holds. -/
def Work.Closed : Work → Prop
  | .give results => Gives Value.AllClosed results
  | .dip x quotation => x.Closed ∧ quotation.Closed
  | .loop progress list quotation => progress.Closed ∧ list.Closed ∧ quotation.Closed
  | .define _ _ | .alert _ => True
  | .words | .code _ | .source _ | .use _ => False

namespace Loop

variable {loop : Loop} {item : Instruction} {value : Value}

theorem closed_iff : loop.Closed ↔ loop.Keeps Value.Closed Instruction.Closed := by
  cases loop with
  | map | filter => exact Code.closed_iff
  | fold result => exact Iff.rfl

theorem Closed.arguments (closed : loop.Closed) (first : value.Closed) :
    Value.AllClosed (loop.arguments value) :=
  (closed_iff.1 closed).arguments first

theorem Closed.gather (closed : loop.Closed) (kept : item.Closed) (result : value.Closed) :
    (loop.gather item value).Closed :=
  closed_iff.2 ((closed_iff.1 closed).gather Value.closed_hereditary kept result)

theorem Closed.outcome (closed : loop.Closed) : loop.outcome.Closed :=
  (closed_iff.1 closed).outcome Value.closed_hereditary

end Loop

/-- A word that reads no state has closed work with closed values. -/
theorem Primitive.work_closed {primitive : Primitive} (plain : primitive.isReflective = false)
    {values : List Value} (closed : Value.AllClosed values) : (primitive.work values).Closed := by
  by_cases right : values.length = primitive.arity
  · cases primitive with
    | operation op =>
        exact (Value.closed_hereditary.apply_gives op closed : Work.Closed (.give _))
    | dip =>
        obtain ⟨x, quotation, rfl⟩ := List.length_eq_two.1 right
        exact ⟨closed x (by simp), closed quotation (by simp)⟩
    | map | filter =>
        obtain ⟨list, quotation, rfl⟩ := List.length_eq_two.1 right
        exact ⟨trivial, closed list (by simp), closed quotation (by simp)⟩
    | fold =>
        obtain ⟨list, initial, quotation, rfl⟩ := List.length_eq_three.1 right
        exact ⟨closed initial (by simp), closed list (by simp), closed quotation (by simp)⟩
    | define =>
        obtain ⟨quotation, name, rfl⟩ := List.length_eq_two.1 right
        exact (trivial : Work.Closed (.define _ _))
    | alert =>
        obtain ⟨value, rfl⟩ := List.length_eq_one_iff.1 right
        exact (trivial : Work.Closed (.alert _))
    | words | eval | use => cases plain
  · rw [work_of_length_ne right]
    exact Gives.error _

/-! ## Machines that know other words -/

/-- What a machine knows: its words, and what was wrong with the texts that it has read. -/
structure Knowledge where
  dictionary : Dictionary
  handlers : Layers Word
  diagnostics : List Fault

namespace Machine

/-- The machine as it is with other knowledge. -/
def knowing (known : Knowledge) (machine : Machine) : Machine :=
  { machine with
    dictionary := known.dictionary
    handlers := known.handlers
    diagnostics := known.diagnostics }

end Machine

namespace Execution

/-- All that is left to do is closed, and so is the stack. -/
structure Closed (execution : Execution) : Prop where
  stack : Value.AllClosed execution.machine.stack
  frames : ∀ frame ∈ execution.frames, frame.Closed

/-- The second execution does what the first does, which is closed, with knowledge of its own. -/
def Apart (first second : Execution) : Prop :=
  first.Closed ∧ ∃ known, second = { first with machine := first.machine.knowing known }

section
variable (machine : Machine) {frames : List Frame} (stack : Value.AllClosed machine.stack)
  (closed : ∀ frame ∈ frames, frame.Closed) (known : Knowledge)
include stack closed

theorem apart_machine (fault : Option Fault) :
    Apart ⟨machine, frames, fault⟩ ⟨machine.knowing known, frames, fault⟩ :=
  ⟨⟨stack, closed⟩, known, rfl⟩

theorem apart_call {pending : Pending} (rest : pending.Closed) (fault : Option Fault) :
    Apart ⟨machine, .call pending :: frames, fault⟩
      ⟨machine.knowing known, .call pending :: frames, fault⟩ :=
  ⟨⟨stack, List.forall_mem_cons.2 ⟨rest, closed⟩⟩, known, rfl⟩

theorem apart_code {code : Code} (code' : Code.Closed code) {pending : Pending}
    (rest : pending.Closed) :
    Apart ⟨machine, .code code :: .call pending :: frames, none⟩
      ⟨machine.knowing known, .code code :: .call pending :: frames, none⟩ :=
  ⟨⟨stack, List.forall_mem_cons.2 ⟨code', List.forall_mem_cons.2 ⟨rest, closed⟩⟩⟩, known, rfl⟩

theorem apart_check {α : Type} {property : α → Prop} {checked : Except Cause α}
    (gives : Gives property checked) {next next' : α → Execution}
    (go : ∀ result, property result → Apart (next result) (next' result)) :
    Apart (check checked machine (.call .nothing :: frames) next)
      (check checked (machine.knowing known) (.call .nothing :: frames) next') := by
  cases checked with
  | error cause => exact apart_call _ stack closed known Pending.closed_nothing _
  | ok result => exact go result (gives result rfl)


theorem apart_continueLoop {loop : Loop} (gathered : loop.Closed) {quotation items : Code}
    (quotation' : Code.Closed quotation) (items' : Code.Closed items) :
    Apart (continueLoop loop quotation items machine frames)
      (continueLoop loop quotation items (machine.knowing known) frames) := by
  cases items with
  | nil =>
      exact apart_call _ (.cons gathered.outcome stack) closed known Pending.closed_nothing none
  | cons item rest =>
      refine apart_check _ stack closed known (Instruction.value_gives items'.1)
        fun value first => ?_
      exact apart_code _ (.append (gathered.arguments first).reverse stack) closed known quotation'
        ⟨gathered, quotation', items'.1, items'.2⟩

theorem apart_perform {work : Work} (work' : work.Closed) :
    Apart (perform work machine frames) (perform work (machine.knowing known) frames) := by
  cases work with
  | give results =>
      exact apart_check _ stack closed known work' fun values all =>
        apart_call _ (.append all.reverse stack) closed known Pending.closed_nothing none
  | dip x quotation =>
      exact apart_check _ stack closed known (Value.asList_gives work'.2) fun code code' =>
        apart_code _ stack closed known code' work'.1
  | loop loop list quotation =>
      obtain ⟨gathered, list', quotation'⟩ := work'
      exact apart_check _ stack closed known (Value.asList_gives list') fun items items' =>
        apart_check _ stack closed known (Value.asList_gives quotation') fun code code' =>
          apart_continueLoop _ stack closed known gathered code' items'
  | define quotation name =>
      have any {α : Type} (checked : Except Cause α) : Gives (fun _ => True) checked :=
        fun _ _ => trivial
      refine apart_check _ stack closed known (any _) fun body _ =>
        apart_check _ stack closed known (any _) fun text _ => ?_
      cases nameProblem? text with
      | some reason => exact apart_call _ stack closed known Pending.closed_nothing _
      | none =>
          -- Each defines the word in its own dictionary, so that is all they differ in still.
          let defined := (machine.knowing known).define text body
          exact apart_call (machine.define text body) stack closed
            ⟨defined.dictionary, defined.handlers, defined.diagnostics⟩ Pending.closed_nothing none
  | alert value =>
      exact apart_call { machine with
        host := { machine.host with alerts := machine.host.alerts.push value.render } }
        stack closed known Pending.closed_nothing none
  | words | code | source | use => exact work'.elim

theorem apart_begin {word : Word} (word' : word.Closed) :
    Apart (begin word machine frames) (begin word (machine.knowing known) frames) := by
  obtain ⟨name, handler⟩ := word
  cases handler with
  | secondary body => exact apart_code _ stack closed known word' Pending.closed_nothing
  | primitive primitive =>
      refine apart_check _ stack closed known (arguments_gives name primitive.arity stack)
        fun parts all => ?_
      exact apart_perform { machine with stack := parts.2 } all.2 closed known
        (Primitive.work_closed word' all.1)

theorem apart_enter (site : Location) {word : Word} (word' : word.Closed) :
    Apart (enter site word machine frames) (enter site word (machine.knowing known) frames) := by
  rw [enter, enter]
  by_cases full : machine.limit ≤ machine.calls.length
  · have full' : (machine.knowing known).limit ≤ (machine.knowing known).calls.length := full
    rw [if_pos full, if_pos full']
    exact apart_machine _ stack closed known _
  · have room : ¬ (machine.knowing known).limit ≤ (machine.knowing known).calls.length := full
    rw [if_neg full, if_neg room]
    exact apart_begin { machine with
      location := some site, calls := ⟨word.name, site⟩ :: machine.calls } stack closed known word'

theorem apart_follow {instruction : Instruction} (instruction' : instruction.Closed) :
    Apart (follow instruction machine frames)
      (follow instruction (machine.knowing known) frames) := by
  obtain ⟨location, element⟩ := instruction
  let visited := { machine with location := location.or machine.location }
  cases element with
  | word word => exact apart_enter visited stack closed known _ instruction'
  | literal text value =>
      exact apart_machine { visited with stack := value :: visited.stack }
        (.cons instruction' stack) closed known none
  | quote code =>
      exact apart_machine { visited with stack := .list code :: visited.stack }
        (.cons instruction' stack) closed known none
  | unknown text => exact apart_machine visited stack closed known none

end

/-- A step of closed code does the same with other knowledge, and leaves closed code. -/
theorem apart_step (first second : Execution) (apart : Apart first second) :
    Apart first.step second.step := by
  obtain ⟨⟨stack, closed⟩, known, rfl⟩ := apart
  obtain ⟨machine, frames, fault⟩ := first
  simp only at stack closed
  -- Closed code looks nothing up, so what the two know differently is not asked for in any case.
  match frames, fault with
  | [], _ => exact apart_machine _ stack closed known _
  | .code _ :: _, some fault =>
      exact apart_machine _ stack (List.forall_mem_cons.1 closed).2 known (some fault)
  | .call _ :: _, some fault =>
      exact apart_machine { machine with calls := machine.calls.tail } stack
        (List.forall_mem_cons.1 closed).2 known (some fault)
  | .code [] :: _, none => exact apart_machine _ stack (List.forall_mem_cons.1 closed).2 known none
  | .code (instruction :: rest) :: frames, none =>
      obtain ⟨⟨next, behind⟩, closed⟩ := List.forall_mem_cons.1 closed
      have rest' : (Frame.code rest).Closed := behind
      exact apart_follow _ stack (List.forall_mem_cons.2 ⟨rest', closed⟩) known next
  | .call .nothing :: _, none =>
      exact apart_machine { machine with calls := machine.calls.tail } stack
        (List.forall_mem_cons.1 closed).2 known none
  | .call (.restore x) :: _, none =>
      obtain ⟨back, closed⟩ := List.forall_mem_cons.1 closed
      exact apart_call { machine with stack := x :: machine.stack } (.cons back stack)
        closed known Pending.closed_nothing none
  | .call (.loop loop quotation item rest) :: frames, none =>
      obtain ⟨⟨gathered, quotation', item', rest'⟩, closed⟩ := List.forall_mem_cons.1 closed
      refine apart_check _ stack closed known (top_gives stack) fun split all => ?_
      exact apart_continueLoop { machine with stack := split.2 } all.2 closed known
        (gathered.gather item' all.1) quotation' rest'

/-- Closed code does the same with other knowledge, and leaves closed values. -/
theorem apart_runCode {code : Code} (closed : Code.Closed code) {machine : Machine}
    (stack : Value.AllClosed machine.stack) (known : Knowledge) :
    Apart (settle (Machine.runCode code machine) [])
      (settle (Machine.runCode code (machine.knowing known)) []) := by
  have only : (Frame.code code).Closed := closed
  have frames : ∀ frame ∈ [Frame.code code], frame.Closed := List.forall_mem_singleton.2 only
  exact related_settle apart_step (apart_machine machine stack frames known none)
    (endsIn_runCode machine code) (endsIn_runCode (machine.knowing known) code)

/-- Two runs end alike, as far as the stack, the host and the one who started them can tell. -/
structure EndAlike (first second : Option Fault × Machine) : Prop where
  fault : first.1 = second.1
  stack : first.2.stack = second.2.stack
  alerts : first.2.host.alerts = second.2.host.alerts

/-- Closed code on a closed stack does the same on all machines that differ in nothing but what
they know, the dictionary, the handlers and the problems of reading: it ends with the same result
or fault and the same stack, and has shown the same messages. What it leaves on the stack is closed
again. -/
theorem early_binding {code : Code} (closed : Code.Closed code) {machine : Machine}
    (stack : Value.AllClosed machine.stack) (known : Knowledge) :
    EndAlike ((Machine.runCode code).attempt machine)
        ((Machine.runCode code).attempt (machine.knowing known)) ∧
      Value.AllClosed ((Machine.runCode code).attempt machine).2.stack := by
  obtain ⟨left, known', same⟩ := apart_runCode closed stack known
  rw [Run.attempt, Run.attempt]
  generalize Machine.runCode code machine = result at *
  generalize Machine.runCode code (machine.knowing known) = result' at *
  cases result <;> cases result' <;> cases same
  · exact ⟨⟨rfl, rfl, rfl⟩, left.stack⟩
  · exact ⟨⟨rfl, rfl, rfl⟩, left.stack⟩

/-- A word whose body doubles the top of the stack still does so where `dup` has been given an empty
body. -/
theorem early_binding_of_dup :
    let dup : Word := ⟨"dup", .primitive (.operation .dup)⟩
    let double : Word := ⟨"double", .secondary [.made (.word dup)]⟩
    let code : Code := [.made (.quote [.made (.word double)]), .made (.word double)]
    let machine : Machine := { limit := 5, host := .empty, stack := [.bool true] }
    let other := machine.define "dup" []
    let known : Knowledge := ⟨other.dictionary, other.handlers, other.diagnostics⟩
    Code.Closed code ∧ Value.AllClosed machine.stack ∧
      (machine.knowing known).bind "dup" = some ⟨"dup", .secondary []⟩ ∧
      EndAlike ((Machine.runCode code).attempt machine)
        ((Machine.runCode code).attempt (machine.knowing known)) ∧
      Value.AllClosed ((Machine.runCode code).attempt machine).2.stack := by
  intro dup double code machine other known
  have closed : Code.Closed code := by
    simp [code, double, dup, Code.Closed, Instruction.made, Instruction.Closed, Element.Closed,
      Word.Closed, Handler.Closed, Primitive.isReflective]
  have stack : Value.AllClosed machine.stack := .cons trivial .nil
  exact ⟨closed, stack, rfl, early_binding closed stack known⟩

end Execution

end LiveStack
