import LiveStack.Proofs.Run.Resemblance

/-!
# What a run notes of the texts it reads

What is wrong with a text stops nothing. It is noted in the machine, behind all that was noted
before, and it is the same whatever the words mean. So a step of a run notes what is wrong with the
text that it reads, if it reads one. Runs that go abreast read the same texts one after the other,
and so they note the same.
-/

namespace LiveStack

open Run

/-! ## The problems of a text -/

namespace Code

/-- What is wrong with the text called `name`, whatever the words mean. -/
def problems (name source : String) : List Fault := (ofSource (fun _ => none) name source).2

/-- Parsers that have met the same problems, and have as many lists open. -/
structure Parser.Par (first second : Parser) : Prop where
  faults : first.faults = second.faults
  depth : first.outer.length = second.outer.length

theorem Parser.Par.step {first second : Parser} (par : first.Par second)
    (binding binding' : Binding) (token : Token) :
    (first.step binding token).Par (second.step binding' token) := by
  obtain ⟨items, outer, faults⟩ := first
  obtain ⟨items', outer', faults'⟩ := second
  obtain ⟨rfl, depth⟩ := par
  obtain ⟨lexeme, place⟩ := token
  cases lexeme with
  | opening => exact ⟨rfl, congrArg Nat.succ depth⟩
  | closing =>
      match outer, outer' with
      | [], [] => exact ⟨rfl, rfl⟩
      | _ :: _, _ :: _ => exact ⟨rfl, Nat.succ.inj depth⟩
  | string text | word text => exact ⟨rfl, depth⟩

theorem Parser.Par.foldl {first second : Parser} (par : first.Par second)
    (binding binding' : Binding) (tokens : List Token) :
    (tokens.foldl (Parser.step binding) first).Par
      (tokens.foldl (Parser.step binding') second) := by
  induction tokens generalizing first second with
  | nil => exact par
  | cons token rest ih => exact ih (par.step binding binding' token)

/-- What is wrong with a text does not depend on what the words mean. -/
theorem ofSource_problems (binding : Binding) (name source : String) :
    (ofSource binding name source).2 = problems name source := by
  have start : Parser.Par {} {} := ⟨rfl, rfl⟩
  have same := (start.foldl binding (fun _ => none) (Token.ofSource name source).1).faults
  exact congrArg (fun faults => (Token.ofSource name source).2 ++ List.reverse faults) same

end Code

/-! ## The texts that a run reads -/

/-- A text that a run reads. -/
structure Reading where
  name : String
  source : String
deriving DecidableEq, Repr

/-- What is wrong with the text. -/
def Reading.problems (reading : Reading) : List Fault :=
  Code.problems reading.name reading.source

/-- The text that a built-in word reads to begin its work. -/
def Work.reading? (host : Host) : Work → Option Reading
  | .source text => some ⟨"<eval>", text⟩
  | .use value => (host.fetch value.render).map (⟨value.render, ·⟩)
  | _ => none

/-- The text that a word reads as soon as it is called. -/
def Word.reading? (word : Word) (machine : Machine) : Option Reading :=
  match word.handler with
  | .secondary _ => none
  | .primitive primitive =>
      match Execution.arguments word.name primitive.arity machine with
      | .ok (values, _) => (primitive.work values).reading? machine.host
      | .error _ => none

namespace Execution

/-- The text that the next step reads. -/
def reading? (execution : Execution) : Option Reading :=
  if execution.machine.limit ≤ execution.machine.calls.length then none
  else execution.calling?.bind (·.reading? execution.machine)

/-- The texts that the next steps read, the first one first. -/
def readings (execution : Execution) : (count : Nat) → List Reading
  | 0 => []
  | count + 1 => execution.reading?.toList ++ execution.step.readings count

/-- The texts that are read until nothing is left to do. -/
def Reads (execution : Execution) (texts : List Reading) : Prop :=
  ∃ count, (execution.after count).isOver ∧ execution.readings count = texts

/-! ### What is noted of them -/

/-- The machine has noted what is wrong with the text, if there is one, behind what was noted
before. -/
def Notes (text? : Option Reading) (before : List Fault) (execution : Execution) : Prop :=
  execution.machine.diagnostics = before ++ text?.toList.flatMap Reading.problems

theorem notes_none {before : List Fault} {execution : Execution}
    (same : execution.machine.diagnostics = before) : Notes none before execution := by
  rw [Notes, same]
  exact (List.append_nil before).symm

theorem notes_check {α : Type} {checked : Except Cause α} {machine : Machine}
    {frames : List Frame} {next : α → Execution}
    (same : ∀ value, (next value).machine.diagnostics = machine.diagnostics) :
    Notes none machine.diagnostics (check checked machine frames next) := by
  cases checked with
  | error cause => exact notes_none rfl
  | ok value => exact notes_none (same value)

theorem diagnostics_continueLoop (loop : Loop) (quotation items : Code) (machine : Machine)
    (frames : List Frame) :
    (continueLoop loop quotation items machine frames).machine.diagnostics =
      machine.diagnostics := by
  cases items with
  | nil => rfl
  | cons item rest => rw [continueLoop]; cases item.value <;> rfl

theorem notes_read (name source : String) (machine : Machine) (frames : List Frame) :
    Notes (some ⟨name, source⟩) machine.diagnostics (read name source machine frames) := by
  have problems := Code.ofSource_problems machine.bind name source
  simp [Notes, read, Reading.problems, problems]

theorem notes_perform (work : Work) (machine : Machine) (frames : List Frame) :
    Notes (work.reading? machine.host) machine.diagnostics (perform work machine frames) := by
  cases work with
  | give results => exact notes_check fun values => rfl
  | dip x quotation => exact notes_check fun code => rfl
  | loop loop list quotation =>
      refine notes_check fun items => ?_
      cases quotation.asList with
      | error cause => rfl
      | ok code => exact diagnostics_continueLoop ..
  | define quotation name =>
      refine notes_check fun body => ?_
      cases name.asString with
      | error cause => rfl
      | ok text => rw [check]; cases nameProblem? text <;> rfl
  | source source => exact notes_read "<eval>" source machine _
  | use value =>
      rw [perform, Work.reading?]
      cases machine.host.fetch value.render with
      | none => exact notes_none rfl
      | some source => exact notes_read value.render source _ _
  | words | code | alert => exact notes_none rfl

theorem notes_begin (word : Word) (machine : Machine) (frames : List Frame) :
    Notes (word.reading? machine) machine.diagnostics (begin word machine frames) := by
  obtain ⟨name, handler⟩ := word
  cases handler with
  | secondary body => exact notes_none rfl
  | primitive primitive =>
      simp only [begin, Word.reading?]
      cases arguments name primitive.arity machine with
      | error cause => exact notes_none rfl
      | ok split =>
          exact notes_perform (primitive.work split.1) { machine with stack := split.2 } frames

theorem notes_enter (site : Location) (word : Word) (machine : Machine) (frames : List Frame) :
    Notes (if machine.limit ≤ machine.calls.length then none else word.reading? machine)
      machine.diagnostics (enter site word machine frames) := by
  rw [enter]
  split
  · exact notes_none rfl
  · exact notes_begin word { machine with
      location := some site, calls := ⟨word.name, site⟩ :: machine.calls } frames

/-- Where no word is called, no text is read. -/
theorem notes_of_calling {execution : Execution} (idle : execution.calling? = none)
    (same : execution.step.machine.diagnostics = execution.machine.diagnostics) :
    Notes execution.reading? execution.machine.diagnostics execution.step := by
  rw [reading?, idle, Option.bind_none, ite_self]
  exact notes_none same

theorem calling_of_fault (machine : Machine) (frames : List Frame) (fault : Fault) :
    calling? ⟨machine, frames, some fault⟩ = none := by
  unfold calling?
  split
  · contradiction
  · rfl

/-- A step notes what is wrong with the text that it reads. -/
theorem notes_step (execution : Execution) :
    Notes execution.reading? execution.machine.diagnostics execution.step := by
  obtain ⟨machine, frames, fault⟩ := execution
  match frames, fault with
  | [], _ => exact notes_of_calling rfl rfl
  | .code _ :: _, some fault => exact notes_of_calling (calling_of_fault machine _ fault) rfl
  | .call _ :: _, some fault => exact notes_of_calling (calling_of_fault machine _ fault) rfl
  | .code [] :: _, none => exact notes_of_calling rfl rfl
  | .code (⟨place, .word word⟩ :: rest) :: frames, none =>
      exact notes_enter _ word { machine with location := place.or machine.location }
        (.code rest :: frames)
  | .code (⟨_, .literal _ _⟩ :: _) :: _, none => exact notes_of_calling rfl rfl
  | .code (⟨_, .quote _⟩ :: _) :: _, none => exact notes_of_calling rfl rfl
  | .code (⟨_, .unknown _⟩ :: _) :: _, none => exact notes_of_calling rfl rfl
  | .call .nothing :: _, none => exact notes_of_calling rfl rfl
  | .call (.restore _) :: _, none => exact notes_of_calling rfl rfl
  | .call (.loop loop quotation item rest) :: frames, none =>
      refine notes_of_calling rfl ?_
      rw [step]
      cases top machine with
      | error cause => rfl
      | ok split => exact diagnostics_continueLoop ..

/-- What is noted in a number of steps is what is wrong with the texts that are read in them. -/
theorem diagnostics_after (execution : Execution) (count : Nat) :
    (execution.after count).machine.diagnostics =
      execution.machine.diagnostics ++ (execution.readings count).flatMap Reading.problems := by
  induction count generalizing execution with
  | zero => exact (List.append_nil _).symm
  | succ count ih =>
      rw [after_succ, ih, notes_step, readings, List.flatMap_append, List.append_assoc]

/-! ### Runs abreast -/

variable {callers callers' : List String} {even : callers'.length = callers.length}

/-- Works that are the same read the same text. -/
theorem reading_of_like {sighted : Prop} {work work' : Work} (same : work.Like sighted work')
    {host host' : Host} (fetch : host.fetch = host'.fetch) :
    work.reading? host = work'.reading? host' := by
  cases same with
  | use seen same =>
      rw [Work.reading?, Work.reading?, fetch, ← Value.render_unplaced, same, Value.render_unplaced]
  | _ => rfl

/-- Words that are the same read the same text, if the machines see the same. -/
theorem reading_of_word {first second : Machine} (like : first.Like second)
    (sight : first.sight = second.sight) {word word' : Word}
    (same : word.unplaced = word'.unplaced) : word.reading? first = word'.reading? second := by
  obtain ⟨name, handler⟩ := word
  obtain ⟨name', handler'⟩ := word'
  obtain ⟨rfl, handlers⟩ := Word.mk.inj same
  have fetch : first.host.fetch = second.host.fetch := congrArg Sight.fetch sight
  cases handler with
  | secondary body =>
      cases handler' with
      | secondary body' => rfl
      | primitive primitive' => cases handlers
  | primitive primitive =>
      cases handler' with
      | secondary body' => cases handlers
      | primitive primitive' =>
          obtain rfl : primitive = primitive' := Handler.primitive.inj handlers
          -- Both take their arguments off the same stack, or find it too short.
          have taken := Inside.arguments like name primitive.arity
          simp only [Word.reading?]
          cases found : arguments name primitive.arity first with
          | error cause =>
              cases found' : arguments name primitive.arity second with
              | error cause' => rfl
              | ok split' => simp [found, found', Except.map] at taken
          | ok split =>
              cases found' : arguments name primitive.arity second with
              | error cause' => simp [found, found', Except.map] at taken
              | ok split' =>
                  rw [found, found'] at taken
                  have values : split.1.map Value.unplaced = split'.1.map Value.unplaced :=
                    congrArg Prod.fst (Except.ok.inj taken)
                  exact reading_of_like (Primitive.work_like (.inr True.intro) values) fetch

/-- The same instruction calls the same word. -/
theorem calling_of_instruction {instruction instruction' : Instruction}
    (same : instruction.unplaced = instruction'.unplaced) (machine machine' : Machine)
    (rest rest' : Code) (frames frames' : List Frame) :
    (calling? ⟨machine, .code (instruction :: rest) :: frames, none⟩).map Word.unplaced =
      (calling? ⟨machine', .code (instruction' :: rest') :: frames', none⟩).map Word.unplaced := by
  obtain ⟨place, element⟩ := instruction
  obtain ⟨place', element'⟩ := instruction'
  obtain ⟨-, same⟩ := Instruction.mk.inj same
  cases element <;> cases element' <;> try cases same
  case word.word word word' => exact congrArg some (Element.word.inj same)
  all_goals rfl

/-- Over the floor, executions that go abreast call the same word next. -/
theorem calling_of_abreast {first second : Execution}
    (abreast : Abreast (Ground.floor callers callers' even) first second) :
    first.calling?.map Word.unplaced = second.calling?.map Word.unplaced := by
  obtain ⟨machine, frames, fault⟩ := first
  obtain ⟨machine', frames', fault'⟩ := second
  obtain ⟨atop, like, causes⟩ := abreast
  -- A stopped execution calls nothing any more, and the other one is stopped by the same cause.
  cases fault with
  | some fault =>
      cases fault' with
      | none => cases causes
      | some fault' => rw [calling_of_fault, calling_of_fault]
  | none =>
      obtain rfl : fault' = none := Option.map_eq_none_iff.1 causes.symm
      simp only at atop
      generalize machine.callers = callers at atop
      generalize machine'.callers = callers' at atop
      cases atop with
      | ground => rfl
      | call same under => rfl
      | @code rest rest' frames frames' _ _ same under =>
          cases rest with
          | nil =>
              obtain rfl : rest' = [] := List.map_eq_nil_iff.1
                ((Code.unplaced_eq_map rest').symm.trans same.symm)
              rfl
          | cons instruction rest =>
              cases rest' with
              | nil => cases same
              | cons instruction' rest' =>
                  exact calling_of_instruction (List.cons.inj same).1 ..

/-- Over the floor, executions that go abreast read the same text next. -/
theorem reading_of_abreast {first second : Execution}
    (abreast : Abreast (Ground.floor callers callers' even) first second) :
    first.reading? = second.reading? := by
  obtain ⟨machine, frames, fault⟩ := first
  obtain ⟨machine', frames', fault'⟩ := second
  obtain ⟨atop, like, causes⟩ := abreast
  have depth : machine'.calls.length = machine.calls.length := by
    simpa [Machine.callers] using length_eq_of_atop True.intro atop
  have limit : machine.limit = machine'.limit := like.limit
  have called : (calling? ⟨machine, frames, fault⟩).map Word.unplaced =
      (calling? ⟨machine', frames', fault'⟩).map Word.unplaced :=
    calling_of_abreast ⟨atop, like, causes⟩
  rw [reading?, reading?, depth, ← limit]
  split
  · rfl
  · generalize calling? ⟨machine, frames, fault⟩ = word? at called ⊢
    generalize calling? ⟨machine', frames', fault'⟩ = word?' at called ⊢
    cases word? with
    | none =>
        cases word?' with
        | none => rfl
        | some word' => cases called
    | some word =>
        cases word?' with
        | none => cases called
        | some word' =>
            exact reading_of_word like.toLike (like.sight True.intro) (Option.some.inj called)

/-- Over the floor, executions that go abreast read the same texts, one after the other. -/
theorem readings_of_abreast {first second : Execution}
    (abreast : Abreast (Ground.floor callers callers' even) first second) (count : Nat) :
    first.readings count = second.readings count := by
  induction count generalizing first second with
  | zero => rfl
  | succ count ih =>
      rw [readings, readings, reading_of_abreast abreast, ih (abreast_step_floor abreast)]

end Execution

namespace Machine

open Execution

variable {first second : Machine}

/-- Code that is the same but for places, run on machines that resemble each other, reads the same
texts. What is wrong with them is noted behind what was noted before. -/
theorem Resembles.diagnostics_runCode (same : first.Resembles second) {code code' : Code}
    (like : Code.unplaced code = Code.unplaced code') :
    ∃ texts : List Reading, (ofCode first code).Reads texts ∧
      ((runCode code).attempt first).2.diagnostics =
        first.diagnostics ++ texts.flatMap Reading.problems ∧
      ((runCode code').attempt second).2.diagnostics =
        second.diagnostics ++ texts.flatMap Reading.problems := by
  obtain ⟨count, ended⟩ := endsIn_runCode first code
  obtain ⟨count', ended'⟩ := endsIn_runCode second code'
  -- After enough steps for both, nothing is left to do.
  have noted := diagnostics_after (ofCode first code) (max count count')
  have noted' := diagnostics_after (ofCode second code') (max count count')
  have done : ((ofCode first code).after (max count count')).isOver := by
    rw [ended _ (Nat.le_max_left ..)]
    cases runCode code first <;> rfl
  rw [ended _ (Nat.le_max_left ..)] at noted
  rw [ended' _ (Nat.le_max_right ..), ← readings_of_abreast (same.abreast like)] at noted'
  rw [attempt_eq_settle, attempt_eq_settle]
  exact ⟨_, ⟨_, done, rfl⟩, noted, noted'⟩

/-- Texts that read as the same code, run on machines that resemble each other, read the same texts
in turn. What is wrong with the texts themselves is noted before what is wrong with those. -/
theorem Resembles.diagnostics_runSource (same : first.Resembles second)
    {name name' source source' : String}
    (reads : Code.unplaced (Code.ofSource first.bind name source).1 =
      Code.unplaced (Code.ofSource second.bind name' source').1) :
    ∃ texts : List Reading, (ofSource first name source).Reads texts ∧
      ((runSource name source).attempt first).2.diagnostics =
        first.diagnostics ++ Code.problems name source ++ texts.flatMap Reading.problems ∧
      ((runSource name' source').attempt second).2.diagnostics =
        second.diagnostics ++ Code.problems name' source' ++ texts.flatMap Reading.problems := by
  rw [attempt_runSource_apply, attempt_runSource_apply, ← Code.ofSource_problems first.bind,
    ← Code.ofSource_problems second.bind]
  exact (same.gather _ _).diagnostics_runCode reads

/-- A built-in word that finds too few values stops the run. Nothing is noted of it. -/
theorem attempt_runCode_underflow {machine : Machine} {primitive : Primitive} (name : String)
    (place : Option Location) (room : machine.calls.length < machine.limit)
    (missing : split? primitive.arity [] machine.stack = none) :
    ∃ (fault : Fault) (last : Machine),
      (runCode [⟨place, .word ⟨name, .primitive primitive⟩⟩]).attempt machine =
        (some fault, last) ∧
      fault.cause = .stackUnderflow name primitive.arity machine.stack.length ∧
      last.diagnostics = machine.diagnostics := by
  let cause := Cause.stackUnderflow name primitive.arity machine.stack.length
  let site := (place.or (place.or machine.location)).getD .unspecified
  let inside : Machine :=
    { machine with location := some site, calls := ⟨name, site⟩ :: machine.calls }
  have short : arguments name primitive.arity inside = .error cause := by
    rw [arguments, show inside.stack = machine.stack from rfl, missing]
  have called : step (ofCode machine [⟨place, .word ⟨name, .primitive primitive⟩⟩]) =
      ⟨inside, [.call .nothing, .code []], some (inside.fault cause)⟩ := by
    have entered : step (ofCode machine [⟨place, .word ⟨name, .primitive primitive⟩⟩]) =
        check (arguments name primitive.arity inside) inside [.call .nothing, .code []]
          fun split => perform (primitive.work split.1) { inside with stack := split.2 } _ :=
      if_neg (Nat.not_le.2 room)
    rw [entered, short]
    rfl
  -- Three steps: the call, and each of the two frames that the fault goes through.
  have run : runCode [⟨place, .word ⟨name, .primitive primitive⟩⟩] machine =
      .error (inside.fault cause) { inside with calls := machine.calls } := by
    refine (endsIn_runCode machine _).unique (endsIn_of_leads ⟨3, ?_⟩)
    rw [after_succ, called]
    rfl
  refine ⟨inside.fault cause, { inside with calls := machine.calls }, ?_, rfl, rfl⟩
  rw [Run.attempt, run]

end Machine

end LiveStack
