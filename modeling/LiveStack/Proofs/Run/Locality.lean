import LiveStack.Proofs.Run.Termination

/-!
# Runs reach no deeper than their words do

A word takes the values it needs off the top of the stack, and code runs on the stack that it
finds. So values beneath the stack make no difference to a run, and are there in the end as they
were: every step commutes with putting them there, until a word misses a value. Only the failure of
such a word can tell how many values there are.
-/

namespace LiveStack

open Run

/-- The failure of a word that finds too few values. -/
def Cause.IsUnderflow (cause : Cause) : Prop :=
  ∃ word needed found, cause = .stackUnderflow word needed found

namespace Machine

/-- The machine with the values `below` beneath its stack. -/
def above (below : List Value) (machine : Machine) : Machine :=
  { machine with stack := machine.stack ++ below }

end Machine

namespace Execution

variable {below : List Value}

/-- The execution with the values `below` beneath its stack. -/
def above (below : List Value) (execution : Execution) : Execution :=
  { execution with machine := execution.machine.above below }

/-- The execution has met too few values. -/
def Underflows (execution : Execution) : Prop :=
  ∃ fault, execution.fault = some fault ∧ fault.cause.IsUnderflow

/-- As long as the first execution finds the values that it needs, the second does the same on a
stack with more values beneath. -/
def Over (below : List Value) (first second : Execution) : Prop :=
  first.Underflows ∨ second = first.above below

/-! ## One step -/

theorem check_above {α : Type} {checked : Except Cause α} {machine : Machine}
    {frames : List Frame} {next next' : α → Execution}
    (same : ∀ value, next' value = (next value).above below) :
    check checked (machine.above below) frames next' =
      (check checked machine frames next).above below := by
  cases checked with
  | error cause => rfl
  | ok value => exact same value

/-- Values that are pushed come above all that is beneath. -/
theorem push_above (values : List Value) (machine : Machine) (frames : List Frame) :
    (⟨{ machine.above below with stack := values ++ (machine.above below).stack }, frames, none⟩ :
        Execution) =
      above below ⟨{ machine with stack := values ++ machine.stack }, frames, none⟩ := by
  simp [above, Machine.above]

theorem continueLoop_above (loop : Loop) (quotation items : Code) (machine : Machine)
    (frames : List Frame) :
    continueLoop loop quotation items (machine.above below) frames =
      (continueLoop loop quotation items machine frames).above below := by
  cases items with
  | nil => rfl
  | cons item rest => exact check_above fun value => push_above ..

theorem perform_above (work : Work) (machine : Machine) (frames : List Frame) :
    perform work (machine.above below) frames = (perform work machine frames).above below := by
  cases work with
  | give results => exact check_above fun values => push_above ..
  | dip x quotation => exact check_above fun code => rfl
  | loop loop list quotation =>
      exact check_above fun items => check_above fun code => continueLoop_above ..
  | define quotation name =>
      refine check_above fun body => check_above fun text => ?_
      cases nameProblem? text with
      | some reason => rfl
      | none => rfl
  | use value =>
      rw [perform, perform]
      rw [show (machine.above below).host = machine.host from rfl]
      cases machine.host.fetch value.render with
      | some source => rfl
      | none => rfl
  | words | code | source | alert => rfl

/-- What is found on a stack is found above other values too. -/
theorem split?_append {count : Nat} {taken stack values rest : List Value}
    (found : split? count taken stack = some (values, rest)) :
    split? count taken (stack ++ below) = some (values, rest ++ below) := by
  induction count generalizing taken stack with
  | zero =>
      obtain ⟨rfl, rfl⟩ : taken = values ∧ stack = rest := by simpa [split?] using found
      rfl
  | succ count ih =>
      cases stack with
      | nil => cases found
      | cons value stack => exact ih found

theorem begin_over (word : Word) (machine : Machine) (frames : List Frame) :
    Over below (begin word machine frames) (begin word (machine.above below) frames) := by
  rw [begin, begin]
  cases word.handler with
  | secondary body => exact .inr rfl
  | primitive primitive =>
      simp only [arguments]
      cases found : split? primitive.arity [] machine.stack with
      | none => exact .inl ⟨_, rfl, _, _, _, rfl⟩
      | some parts =>
          have found' : split? primitive.arity [] (machine.above below).stack =
              some (parts.1, parts.2 ++ below) := split?_append found
          rw [found']
          exact .inr (perform_above (primitive.work parts.1) { machine with stack := parts.2 } _)

theorem enter_over (site : Location) (word : Word) (machine : Machine) (frames : List Frame) :
    Over below (enter site word machine frames) (enter site word (machine.above below) frames) := by
  by_cases full : machine.limit ≤ machine.calls.length
  · have full' : (machine.above below).limit ≤ (machine.above below).calls.length := full
    rw [enter, enter, if_pos full, if_pos full']
    exact .inr rfl
  · have room : ¬ (machine.above below).limit ≤ (machine.above below).calls.length := full
    rw [enter, enter, if_neg full, if_neg room]
    exact begin_over word { machine with
      location := some site, calls := ⟨word.name, site⟩ :: machine.calls } frames

theorem follow_over (instruction : Instruction) (machine : Machine) (frames : List Frame) :
    Over below (follow instruction machine frames)
      (follow instruction (machine.above below) frames) := by
  rw [follow, follow]
  cases instruction.element with
  | word word =>
      exact enter_over _ word { machine with
        location := instruction.location.or machine.location } frames
  | literal text value => exact .inr rfl
  | quote code => exact .inr rfl
  | unknown text => exact .inr rfl

/-- A fault is handed on until nothing is left to do. -/
theorem Underflows.step {execution : Execution} (underflows : execution.Underflows) :
    execution.step.Underflows := by
  obtain ⟨machine, frames, fault⟩ := execution
  obtain ⟨fault, rfl, cause⟩ := underflows
  match frames with
  | [] => exact ⟨fault, rfl, cause⟩
  | .code _ :: _ => exact ⟨fault, rfl, cause⟩
  | .call _ :: _ => exact ⟨fault, rfl, cause⟩

theorem over_step (first second : Execution) (kept : Over below first second) :
    Over below first.step second.step := by
  rcases kept with underflows | rfl
  · exact .inl underflows.step
  obtain ⟨machine, frames, fault⟩ := first
  match frames, fault with
  | [], _ => exact .inr rfl
  | .code _ :: _, some _ => exact .inr rfl
  | .call _ :: _, some _ => exact .inr rfl
  | .code [] :: _, none => exact .inr rfl
  | .code (instruction :: _) :: _, none => exact follow_over ..
  | .call .nothing :: _, none => exact .inr rfl
  | .call (.restore _) :: _, none => exact .inr rfl
  | .call (.loop loop quotation item rest) :: frames, none =>
      obtain ⟨host, limit, stack, location, calls, dictionary, handlers, diagnostics⟩ := machine
      cases stack with
      | nil => exact .inl ⟨_, rfl, _, _, _, rfl⟩
      | cons result stack =>
          exact .inr (continueLoop_above (loop.gather item result) quotation rest
            ⟨host, limit, stack, location, calls, dictionary, handlers, diagnostics⟩ frames)

/-- Code that succeeds does the same with more values beneath the stack, and leaves them there. So
does code that fails, unless it fails for want of values. -/
theorem stack_locality (machine : Machine) (code : Code) (below : List Value) :
    (∀ last, Machine.runCode code machine = .ok () last →
      Machine.runCode code (machine.above below) = .ok () (last.above below)) ∧
    (∀ fault last, Machine.runCode code machine = .error fault last → ¬ fault.cause.IsUnderflow →
      Machine.runCode code (machine.above below) = .error fault (last.above below)) := by
  have kept := related_settle over_step (.inr rfl : Over below (ofCode machine code) _)
    (endsIn_runCode machine code) (endsIn_runCode (machine.above below) code)
  constructor
  · intro last ran
    rw [ran] at kept
    rcases kept with ⟨fault, stopped, -⟩ | same
    · cases stopped
    · exact settle_injective (show _ = settle (.ok () (last.above below)) [] from same)
  · intro fault last ran other
    rw [ran] at kept
    rcases kept with ⟨fault, stopped, underflow⟩ | same
    · cases stopped
      exact absurd underflow other
    · exact settle_injective (show _ = settle (.error fault (last.above below)) [] from same)

/-- On a stack of two truths with another beneath, `[ dup ] dip` doubles the lower of the two, and a
division of the two by each other fails with the same fault. -/
theorem stack_locality_of_dip :
    let machine : Machine := { limit := 5, host := .empty, stack := [.bool false, .bool true] }
    let double : Code := [.made (.quote [.made (.word ⟨"dup", .primitive (.operation .dup)⟩)]),
      .made (.word ⟨"dip", .primitive .dip⟩)]
    let divide : Code := [.made (.word ⟨"/", .primitive (.operation .divide)⟩)]
    (∃ last, Machine.runCode double machine = .ok () last ∧
      last.stack = [.bool false, .bool true, .bool true] ∧
      Machine.runCode double (machine.above [.bool true]) = .ok () (last.above [.bool true])) ∧
    ∃ fault last, Machine.runCode divide machine = .error fault last ∧
      fault.cause = .divisionByZero ∧
      Machine.runCode divide (machine.above [.bool true]) =
        .error fault (last.above [.bool true]) := by
  intro machine double divide
  have all := stack_locality machine
  have doubles : Machine.runCode double machine = .ok () { machine with
      stack := [.bool false, .bool true, .bool true], location := some .unspecified } :=
    (endsIn_runCode machine double).unique (endsIn_of_leads ⟨8, by
      simp [machine, double, ofCode, Instruction.made, after, step, follow, enter, begin, check,
        arguments, split?, Primitive.arity, Primitive.info, Operation.info, Operation.apply,
        Primitive.work, perform, Value.asList, settle]⟩)
  have fails : Machine.runCode divide machine =
      .error ⟨some .unspecified, .divisionByZero, some [⟨"/", .unspecified⟩]⟩
        { machine with stack := [], location := some .unspecified } :=
    (endsIn_runCode machine divide).unique (endsIn_of_leads ⟨3, by
      simp [machine, divide, ofCode, Instruction.made, after, step, follow, enter, begin, check,
        arguments, split?, Primitive.arity, Primitive.info, Operation.info, Operation.apply,
        Primitive.work, perform, settle, Machine.fault]
      rfl⟩)
  have other : ¬ Cause.divisionByZero.IsUnderflow := by
    rintro ⟨word, needed, found, same⟩
    cases same
  exact ⟨⟨_, doubles, rfl, (all double [.bool true]).1 _ doubles⟩,
    ⟨_, _, fails, rfl, (all divide [.bool true]).2 _ _ fails other⟩⟩

end Execution

end LiveStack
