import LiveStack.Proofs.Run.Prelude
import LiveStack.Proofs.Run.Refusals

/-!
# Runs that panic

A run that is over has come to a result or to an error of the language, with one exception: called
for two integers that are too far apart, `range` asks for a list that is longer than a vector can
be. The run panics over this. Nothing else makes a run panic, so whether it does can be seen from
the calls on its way: a step from such a call brings the panic, and any other brings one only if it
was there before.
-/

namespace LiveStack

open Execution

/-- The word, called on this machine, asks for more integers than a vector has room for. -/
def Machine.Overreaches (machine : Machine) (word : Word) : Prop :=
  machine.calls.length < machine.limit ∧ word.handler = .primitive (.operation .range) ∧
    ∃ low high rest, machine.stack = .int low :: .int high :: rest ∧
      Code.capacity < (high.toInt + 1 - low.toInt).toNat

/-- The run has not ended as runs of the language do, but in a panic. -/
def Panics (result : EStateM.Result Fault Machine Unit) : Prop :=
  ∃ fault last, result = .error fault last ∧ fault.isPanic = true

namespace Execution

/-- The next thing to do is a call of `range` for more integers than a vector has room for. -/
inductive Overreaches : Execution → Prop
  | call {machine : Machine} {word : Word} (overreaches : machine.Overreaches word)
      (place : Option Location) (rest : Code) (frames : List Frame) :
      Overreaches ⟨machine, .code (⟨place, .word word⟩ :: rest) :: frames, none⟩

/-- The execution is panicking. -/
def Panicking (execution : Execution) : Prop :=
  ∃ fault, execution.fault = some fault ∧ fault.isPanic = true

theorem panicking_settle {result : EStateM.Result Fault Machine Unit} (frames : List Frame) :
    (settle result frames).Panicking ↔ Panics result := by
  cases result with
  | ok _ machine =>
      constructor
      · rintro ⟨_, ⟨⟩, _⟩
      · rintro ⟨_, _, ⟨⟩, _⟩
  | error fault machine =>
      constructor
      · rintro ⟨_, ⟨⟩, panic⟩
        exact ⟨fault, machine, rfl, panic⟩
      · rintro ⟨_, _, ⟨⟩, panic⟩
        exact ⟨fault, rfl, panic⟩

/-! ## One step -/

/-- An execution that goes on is not panicking. -/
theorem not_panicking_going {machine : Machine} {frames : List Frame} :
    ¬ Panicking ⟨machine, frames, none⟩ := nofun

theorem not_panicking_fault {machine : Machine} {frames : List Frame} {cause : Cause}
    (other : (machine.fault cause).isPanic = false) :
    ¬ Panicking ⟨machine, frames, some (machine.fault cause)⟩ := by
  rintro ⟨_, ⟨⟩, panic⟩
  exact Bool.noConfusion (other.symm.trans panic)

/-- A check that refuses values does not panic, so what goes on from it does. -/
theorem panicking_of_check {α : Type} {checked : Except Cause α} (refuses : RefusesOnly checked)
    {machine : Machine} {frames : List Frame} {next : α → Execution}
    (panicking : (check checked machine frames next).Panicking) :
    ∃ value, checked = .ok value ∧ (next value).Panicking := by
  cases checked with
  | error cause =>
      obtain ⟨_, ⟨⟩, panic⟩ := panicking
      cases of_decide_eq_true panic
      cases refuses _ rfl
  | ok value => exact ⟨value, rfl, panicking⟩

theorem not_panicking_check {α : Type} {checked : Except Cause α} (refuses : RefusesOnly checked)
    {machine : Machine} {frames : List Frame} {next : α → Execution}
    (going : ∀ value, ¬ (next value).Panicking) :
    ¬ (check checked machine frames next).Panicking := fun panicking =>
  have ⟨value, _, panicking⟩ := panicking_of_check refuses panicking
  going value panicking

theorem not_panicking_continueLoop (loop : Loop) (quotation items : Code) (machine : Machine)
    (frames : List Frame) : ¬ (continueLoop loop quotation items machine frames).Panicking := by
  cases items with
  | nil => exact not_panicking_going
  | cons item rest => exact not_panicking_check (.value item) fun _ => not_panicking_going

/-- Work that gives no values, or refuses those that it was given. -/
theorem not_panicking_perform {work : Work}
    (refuses : ∀ results, work = .give results → RefusesOnly results) (machine : Machine)
    (frames : List Frame) : ¬ (perform work machine frames).Panicking := by
  cases work with
  | give results => exact not_panicking_check (refuses results rfl) fun _ => not_panicking_going
  | dip x quotation => exact not_panicking_check (.asList _) fun _ => not_panicking_going
  | loop loop list quotation =>
      exact not_panicking_check (.asList _) fun items =>
        not_panicking_check (.asList _) fun code => not_panicking_continueLoop _ _ _ _ _
  | define quotation name =>
      refine not_panicking_check (.asList _) fun body =>
        not_panicking_check (.asString _) fun text => ?_
      cases nameProblem? text with
      | some reason => exact not_panicking_fault rfl
      | none => exact not_panicking_going
  | use value =>
      rw [perform]
      cases machine.host.fetch value.render with
      | some source => exact not_panicking_going
      | none => exact not_panicking_fault rfl
  | words | code | source | alert => exact not_panicking_going

/-- The two values that a word takes are those on top, the last one above. -/
theorem arguments_two {name : String} {machine : Machine} {first second : Value}
    {stack : List Value} : arguments name 2 machine = .ok ([first, second], stack) ↔
      machine.stack = second :: first :: stack := by
  rw [arguments]
  rcases machine.stack with _ | ⟨_, _ | ⟨_, _⟩⟩ <;> constructor <;> rintro ⟨⟩
  all_goals rfl

/-- A call panics if it asks `range` for too much, and else it does not. -/
theorem panicking_enter_iff (site : Location) (word : Word) (machine : Machine)
    (frames : List Frame) :
    (enter site word machine frames).Panicking ↔ machine.Overreaches word := by
  by_cases full : machine.limit ≤ machine.calls.length
  · rw [enter, if_pos full]
    constructor
    · exact fun panicking => absurd panicking (not_panicking_fault rfl)
    · rintro ⟨room, -⟩
      exact absurd room (Nat.not_lt.2 full)
  obtain ⟨name, handler⟩ := word
  rw [enter, if_neg full, begin]
  constructor
  · intro panicking
    cases handler with
    | secondary body => exact absurd panicking not_panicking_going
    | primitive primitive =>
        obtain ⟨⟨values, stack⟩, taken, panicking⟩ :=
          panicking_of_check (.arguments _ _ _) panicking
        -- Work that refuses its values does not panic, so this is the one that does not.
        by_cases refuses : ∀ results, primitive.work values = .give results → RefusesOnly results
        · exact absurd panicking (not_panicking_perform refuses _ _)
        · push Not at refuses
          obtain ⟨results, given, accepts⟩ := refuses
          obtain ⟨rfl, high, low, rfl, large⟩ :=
            (Primitive.refuses_work given).resolve_left accepts
          exact ⟨Nat.not_le.1 full, rfl, low, high, stack, arguments_two.1 taken, large⟩
  · rintro ⟨-, rfl, low, high, rest, stack, large⟩
    have taken : arguments name 2 { machine with
        location := some site, calls := ⟨name, site⟩ :: machine.calls } =
          .ok ([.int high, .int low], rest) := arguments_two.2 stack
    have asked : (Primitive.operation .range).work [.int high, .int low] =
        .give (.error .capacityOverflow) :=
      congrArg Work.give (Operation.range_of_overlong ⟨high, low, rfl, large⟩)
    show (check (arguments name 2 _) _ _ _).Panicking
    rw [taken]
    show (perform ((Primitive.operation .range).work _) _ _).Panicking
    rw [asked]
    exact ⟨_, rfl, rfl⟩

theorem panicking_follow {instruction : Instruction} {machine : Machine} {frames : List Frame}
    (panicking : (follow instruction machine frames).Panicking) :
    ∃ word, instruction.element = .word word ∧ machine.Overreaches word := by
  obtain ⟨place, element⟩ := instruction
  cases element with
  | word word =>
      have visited := (panicking_enter_iff _ word { machine with
        location := place.or machine.location } frames).1 panicking
      exact ⟨word, rfl, visited⟩
  | literal | quote | unknown => exact absurd panicking not_panicking_going

/-- A step brings a panic if the execution was panicking before, or the step is a call of `range`
for more than there is room for. -/
theorem panicking_step_iff (execution : Execution) :
    execution.step.Panicking ↔ execution.Panicking ∨ execution.Overreaches := by
  constructor
  · intro panicking
    match execution with
    | ⟨_, [], _⟩ => exact .inl panicking
    | ⟨_, .code _ :: _, some _⟩ => exact .inl panicking
    | ⟨_, .call _ :: _, some _⟩ => exact .inl panicking
    | ⟨_, .code [] :: _, none⟩ => exact absurd panicking not_panicking_going
    | ⟨_, .code (⟨place, element⟩ :: rest) :: frames, none⟩ =>
        obtain ⟨word, rfl, overreaches⟩ := panicking_follow panicking
        exact .inr (.call overreaches place rest frames)
    | ⟨_, .call .nothing :: _, none⟩ => exact absurd panicking not_panicking_going
    | ⟨_, .call (.restore _) :: _, none⟩ => exact absurd panicking not_panicking_going
    | ⟨machine, .call (.loop loop quotation item rest) :: frames, none⟩ =>
        exact absurd panicking (not_panicking_check (.top machine) fun _ =>
          not_panicking_continueLoop _ _ _ _ _)
  · rintro (⟨fault, stopped, panic⟩ | ⟨overreaches, place, rest, frames⟩)
    · -- The fault is handed on until nothing is left to do.
      obtain ⟨machine, frames, _⟩ := execution
      cases stopped
      cases frames with
      | nil => exact ⟨fault, rfl, panic⟩
      | cons frame frames => cases frame <;> exact ⟨fault, rfl, panic⟩
    · exact (panicking_enter_iff _ _ _ _).2 overreaches

/-! ## Runs -/

/-- An execution is panicking after so many steps if it was from the beginning, or came by a call of
`range` for too much. -/
theorem panicking_after_iff (execution : Execution) (count : Nat) :
    (execution.after count).Panicking ↔
      execution.Panicking ∨ ∃ earlier < count, (execution.after earlier).Overreaches := by
  induction count generalizing execution with
  | zero => exact ⟨.inl, fun either => either.resolve_right nofun⟩
  | succ count ih =>
      rw [after_succ, ih, panicking_step_iff, or_assoc]
      refine or_congr_right ⟨?_, ?_⟩
      · rintro (overreaches | ⟨earlier, early, overreaches⟩)
        · exact ⟨0, Nat.succ_pos count, overreaches⟩
        · exact ⟨earlier + 1, Nat.succ_lt_succ early, overreaches⟩
      · rintro ⟨earlier, early, overreaches⟩
        cases earlier with
        | zero => exact .inl overreaches
        | succ earlier => exact .inr ⟨earlier, Nat.lt_of_succ_lt_succ early, overreaches⟩

/-- A run has panicked if its execution came by a call of `range` for too much. -/
theorem EndsIn.panics_iff {execution : Execution} {result : EStateM.Result Fault Machine Unit}
    (ends : EndsIn execution result) :
    Panics result ↔ execution.Panicking ∨ ∃ count, (execution.after count).Overreaches := by
  obtain ⟨enough, ended⟩ := ends
  rw [← panicking_settle []]
  constructor
  · intro panicking
    rw [← ended enough (Nat.le_refl enough), panicking_after_iff] at panicking
    exact panicking.imp_right fun ⟨count, _, overreaches⟩ => ⟨count, overreaches⟩
  · intro either
    have late (count : Nat) : enough ≤ enough + count := Nat.le_add_right enough count
    rcases either with panicking | ⟨count, overreaches⟩
    · rw [← ended _ (late 0), panicking_after_iff]
      exact .inl panicking
    · rw [← ended _ (late (count + 1)), panicking_after_iff]
      exact .inr ⟨count, by omega, overreaches⟩

/-- Every evaluation ends, of source text, of code and of a word, on every machine: after finitely
many steps nothing is left to do, and the result or the fault is the one that the evaluator gives.
The fault is an error of the language, unless the run has panicked; and it has done so just if it
came by a call of `range` for more integers than a vector has room for. -/
theorem every_evaluation_ends (machine : Machine) :
    (∀ name source,
      EndsIn (ofSource machine name source) (Machine.runSource name source machine)) ∧
    (∀ code, EndsIn (ofCode machine code) (Machine.runCode code machine)) ∧
    (∀ site word, EndsIn (ofWord machine site word) (Machine.call site word machine)) ∧
    (∀ name source, Panics (Machine.runSource name source machine) ↔
      ∃ count, ((ofSource machine name source).after count).Overreaches) ∧
    (∀ code, Panics (Machine.runCode code machine) ↔
      ∃ count, ((ofCode machine code).after count).Overreaches) ∧
    (∀ site word, Panics (Machine.call site word machine) ↔
      machine.Overreaches word ∨
        ∃ count, ((ofWord machine site word).after count).Overreaches) := by
  refine ⟨endsIn_runSource machine, endsIn_runCode machine, endsIn_call machine, ?_, ?_, ?_⟩
  · intro name source
    exact (endsIn_runSource machine name source).panics_iff.trans
      (or_iff_right not_panicking_going)
  · intro code
    exact (endsIn_runCode machine code).panics_iff.trans (or_iff_right not_panicking_going)
  · intro site word
    rw [(endsIn_call machine site word).panics_iff, ofWord, panicking_enter_iff]

/-- Of the positive integers up to the largest there is no list, not even one to drop: in a new
machine, the text that asks for it neither succeeds nor stops with an error. -/
theorem counting_to_maxValue_panics :
    ∃ made, Machine.bootstrapped 50 .empty = .ok made ∧
      Panics (Machine.runSource "<text>" "9223372036854775807 1 range drop" made) := by
  obtain ⟨made, loaded, ready⟩ := Machine.exists_bootstrapped (show 0 < 50 by decide) .empty
  have binds (op : Operation) : made.bind (Primitive.operation op).name =
      some ⟨(Primitive.operation op).name, .primitive (.operation op)⟩ := by
    obtain ⟨word, bound, is⟩ := Machine.exists_bound loaded
      (show (Prelude.Item.op op).name? = some (Primitive.operation op).name from rfl)
    cases is
    exact bound
  have range : made.bind "range" = some ⟨"range", .primitive (.operation .range)⟩ := binds .range
  have drop : made.bind "drop" = some ⟨"drop", .primitive (.operation .drop)⟩ := binds .drop
  have high : made.bind "9223372036854775807" = none :=
    ready.bind_eq_none_of (by decide) (by decide)
  have low : made.bind "1" = none := ready.bind_eq_none_of (by decide) (by decide)
  have lexed : Token.ofSource "<text>" "9223372036854775807 1 range drop" =
      ([⟨.word "9223372036854775807", ⟨"<text>", 1, 1⟩⟩, ⟨.word "1", ⟨"<text>", 1, 21⟩⟩,
        ⟨.word "range", ⟨"<text>", 1, 23⟩⟩, ⟨.word "drop", ⟨"<text>", 1, 29⟩⟩], []) := by
    decide
  have number : Literal.read? "9223372036854775807" = some (.int .maxValue) := rfl
  have number' : Literal.read? "1" = some (.int 1) := rfl
  have reads : Code.ofSource made.bind "<text>" "9223372036854775807 1 range drop" =
      ([⟨some ⟨"<text>", 1, 1⟩, .literal "9223372036854775807" (.int .maxValue)⟩,
        ⟨some ⟨"<text>", 1, 21⟩, .literal "1" (.int 1)⟩,
        ⟨some ⟨"<text>", 1, 23⟩, .word ⟨"range", .primitive (.operation .range)⟩⟩,
        ⟨some ⟨"<text>", 1, 29⟩, .word ⟨"drop", .primitive (.operation .drop)⟩⟩], []) := by
    rw [Code.ofSource, lexed]
    simp [Code.ofTokens, Code.Parser.step, Code.Parser.finish, Element.ofToken, high, low, range,
      drop, number, number']
  refine ⟨made, loaded, (endsIn_runSource made _ _).panics_iff.2 (.inr ⟨2, ?_⟩)⟩
  rw [ofSource, Execution.read, reads]
  have room : made.calls.length < made.limit := by
    rw [ready.idle]
    exact ready.room
  refine .call ?_ _ _ _
  exact ⟨room, rfl, 1, .maxValue, made.stack, rfl, by decide⟩

end Execution

end LiveStack
