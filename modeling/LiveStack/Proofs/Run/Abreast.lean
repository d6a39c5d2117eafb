import LiveStack.Proofs.Run.Changes
import LiveStack.Proofs.Run.Sight

/-!
# Two runs abreast

Two executions go abreast if they do the same things on stacks that are the same but for places,
each on top of frames and calls of its own. They may differ in all that a run only writes: places,
problems of reading, and what the words mean by now. The language sees none of that unless it calls
one of the words that read it, `eval`, `use` and `words`. So the machines of the two have either the
same sight, and go abreast whatever they call; or they may have different ones, and go abreast as
long as none of these words is called. Going abreast is kept step by step, until both executions
have come down to the frames that they stand on.

The names of the open calls are carried along with the frames that close them. A stack underflow
names the innermost one, and the calls that were open before may be other ones in the two.
-/

namespace LiveStack

open Run

/-! ## Words that read the state -/

/-- Whether a built-in word reads what the words mean, or code that the host holds. -/
def Primitive.isReflective : Primitive → Bool
  | .eval | .use | .words => true
  | _ => false

/-- Whether calling the word reads what the words mean, or code that the host holds. -/
def Word.isReflective (word : Word) : Bool :=
  match word.handler with
  | .primitive primitive => primitive.isReflective
  | .secondary _ => false

/-! ## What is the same but for places -/

/-- Loops along lists that are the same but for places. -/
inductive Loop.Like : Loop → Loop → Prop
  | map {results results' : Code} (same : Code.unplaced results = Code.unplaced results') :
      Like (.map results) (.map results')
  | filter {kept kept' : Code} (same : Code.unplaced kept = Code.unplaced kept') :
      Like (.filter kept) (.filter kept')
  | fold {result result' : Value} (same : result.unplaced = result'.unplaced) :
      Like (.fold result) (.fold result')

/-- What is left to do in open calls, the same but for places. -/
inductive Pending.Like : Pending → Pending → Prop
  | nothing : Like .nothing .nothing
  | restore {x x' : Value} (same : x.unplaced = x'.unplaced) : Like (.restore x) (.restore x')
  | loop {loop loop' : Loop} {quotation quotation' rest rest' : Code} {item item' : Instruction}
      (loops : loop.Like loop') (quotations : Code.unplaced quotation = Code.unplaced quotation')
      (items : item.unplaced = item'.unplaced) (rests : Code.unplaced rest = Code.unplaced rest') :
      Like (.loop loop quotation item rest) (.loop loop' quotation' item' rest')

/-- Works that are the same but for places. They read no state, unless the two see the same. -/
inductive Work.Like (sighted : Prop) : Work → Work → Prop
  | give {results results' : Except Cause (List Value)}
      (same : results.map (List.map Value.unplaced) = results'.map (List.map Value.unplaced)) :
      Like sighted (.give results) (.give results')
  | dip {x x' quotation quotation' : Value} (same : x.unplaced = x'.unplaced)
      (quotations : quotation.unplaced = quotation'.unplaced) :
      Like sighted (.dip x quotation) (.dip x' quotation')
  | loop {loop loop' : Loop} {list list' quotation quotation' : Value} (loops : loop.Like loop')
      (lists : list.unplaced = list'.unplaced)
      (quotations : quotation.unplaced = quotation'.unplaced) :
      Like sighted (.loop loop list quotation) (.loop loop' list' quotation')
  | define {quotation quotation' name name' : Value}
      (quotations : quotation.unplaced = quotation'.unplaced)
      (names : name.unplaced = name'.unplaced) :
      Like sighted (.define quotation name) (.define quotation' name')
  | alert {value value' : Value} (same : value.unplaced = value'.unplaced) :
      Like sighted (.alert value) (.alert value')
  | words (seen : sighted) : Like sighted .words .words
  | code (seen : sighted) {code code' : Code} (same : Code.unplaced code = Code.unplaced code') :
      Like sighted (.code code) (.code code')
  | source (seen : sighted) (source : String) : Like sighted (.source source) (.source source)
  | use (seen : sighted) {value value' : Value} (same : value.unplaced = value'.unplaced) :
      Like sighted (.use value) (.use value')

namespace Loop

variable {loop loop' : Loop} {item item' : Instruction} {value value' : Value}

theorem Like.arguments (loops : loop.Like loop') (same : value.unplaced = value'.unplaced) :
    (loop.arguments value).map Value.unplaced = (loop'.arguments value').map Value.unplaced := by
  cases loops with
  | map | filter => simp [Loop.arguments, same]
  | fold result => simp [Loop.arguments, same, result]

theorem Like.gather (loops : loop.Like loop') (items : item.unplaced = item'.unplaced)
    (same : value.unplaced = value'.unplaced) :
    (loop.gather item value).Like (loop'.gather item' value') := by
  cases loops with
  | map results =>
      refine .map ?_
      have made : (Element.ofValue value).unplaced = (Element.ofValue value').unplaced := by
        rw [← Element.ofValue_unplaced, same, Element.ofValue_unplaced]
      simp only [Code.unplaced, Instruction.made_unplaced, made, results]
  | filter kept =>
      have truth : value.truth = value'.truth := by
        rw [← Value.truth_unplaced, same, Value.truth_unplaced]
      refine .filter ?_
      rw [truth]
      split
      · simp only [Code.unplaced, items, kept]
      · exact kept
  | fold result => exact .fold same

theorem Like.outcome (loops : loop.Like loop') :
    loop.outcome.unplaced = loop'.outcome.unplaced := by
  cases loops with
  | map same | filter same =>
      rw [Code.unplaced_eq_map, Code.unplaced_eq_map] at same
      simp [Loop.outcome, Value.unplaced, Code.unplaced_eq_map, same]
  | fold same => exact same

end Loop

/-! ## The work of a built-in word -/

namespace Primitive

theorem work_of_length_ne {primitive : Primitive} {values : List Value}
    (wrong : values.length ≠ primitive.arity) :
    primitive.work values =
      .give (.error (.stackUnderflow primitive.name primitive.arity values.length)) := by
  unfold work
  split <;> first
    | exact absurd rfl wrong
    | exact congrArg Work.give (Operation.apply_of_length_ne wrong)
    | rfl

/-- To run a value is the same as to run one that is the same but for places. -/
theorem work_eval_like {sighted : Prop} (seen : sighted) {value value' : Value}
    (same : value.unplaced = value'.unplaced) :
    (eval.work [value]).Like sighted (eval.work [value']) := by
  have wrong : value.describe = value'.describe := by
    rw [← Value.describe_unplaced, same, Value.describe_unplaced]
  have failed (cause : Cause) : (Work.give (.error cause)).Like sighted (.give (.error cause)) :=
    .give rfl
  cases value with
  | list code =>
      cases value' with
      | list code' => exact .code seen (Value.list.inj same)
      | _ => cases same
  | string text =>
      cases value' with
      | string text' =>
          obtain rfl : text = text' := Value.string.inj same
          exact .source seen text
      | _ => cases same
  | int | float | bool =>
      cases value' with
      | list | string => cases same
      | _ => simp only [work, wrong, failed]

theorem exists_one_like {values values' : List Value} (one : values.length = 1)
    (same : values.map Value.unplaced = values'.map Value.unplaced) :
    ∃ value value', values = [value] ∧ values' = [value'] ∧ value.unplaced = value'.unplaced := by
  obtain ⟨value, rfl⟩ := List.length_eq_one_iff.1 one
  obtain ⟨value', _, rfl, equal, rest⟩ := List.map_eq_cons_iff.1 same.symm
  obtain rfl := List.map_eq_nil_iff.1 rest
  exact ⟨value, value', rfl, rfl, equal.symm⟩

theorem exists_two_like {values values' : List Value} (two : values.length = 2)
    (same : values.map Value.unplaced = values'.map Value.unplaced) :
    ∃ x y x' y', values = [x, y] ∧ values' = [x', y'] ∧ x.unplaced = x'.unplaced ∧
      y.unplaced = y'.unplaced := by
  obtain ⟨x, y, rfl⟩ := List.length_eq_two.1 two
  obtain ⟨x', rest', rfl, first, rests⟩ := List.map_eq_cons_iff.1 same.symm
  obtain ⟨_, y', alone, rfl, second⟩ := exists_one_like rfl rests.symm
  exact ⟨x, y, x', y', rfl, rfl, first.symm, by rw [← second, List.singleton_inj.1 alone]⟩

/-- A word has the same work with the same values, if it reads no state or both see the same. -/
theorem work_like {sighted : Prop} {primitive : Primitive}
    (ready : primitive.isReflective = false ∨ sighted) {values values' : List Value}
    (same : values.map Value.unplaced = values'.map Value.unplaced) :
    (primitive.work values).Like sighted (primitive.work values') := by
  have lengths : values.length = values'.length := by
    simpa using congrArg List.length same
  by_cases right : values.length = primitive.arity
  · cases primitive with
    | operation op =>
        refine .give ?_
        rw [← Operation.apply_unplaced, same, Operation.apply_unplaced]
    | dip =>
        obtain ⟨x, quotation, x', quotation', rfl, rfl, first, second⟩ := exists_two_like right same
        exact .dip first second
    | map =>
        obtain ⟨list, quotation, list', quotation', rfl, rfl, first, second⟩ :=
          exists_two_like right same
        exact .loop (.map rfl) first second
    | filter =>
        obtain ⟨list, quotation, list', quotation', rfl, rfl, first, second⟩ :=
          exists_two_like right same
        exact .loop (.filter rfl) first second
    | fold =>
        obtain ⟨list, initial, quotation, rfl⟩ := List.length_eq_three.1 right
        obtain ⟨list', initial', quotation', rfl⟩ := List.length_eq_three.1 (lengths ▸ right)
        simp only [List.map_cons, List.map_nil, List.cons.injEq] at same
        exact .loop (.fold same.2.1) same.1 same.2.2.1
    | define =>
        obtain ⟨quotation, name, quotation', name', rfl, rfl, first, second⟩ :=
          exists_two_like right same
        exact .define first second
    | alert =>
        obtain ⟨value, value', rfl, rfl, equal⟩ := exists_one_like right same
        exact .alert equal
    | words =>
        obtain rfl := List.length_eq_zero_iff.1 right
        obtain rfl := List.length_eq_zero_iff.1 (lengths ▸ right)
        exact .words (ready.resolve_left Bool.noConfusion)
    | eval =>
        obtain ⟨value, value', rfl, rfl, equal⟩ := exists_one_like right same
        exact work_eval_like (ready.resolve_left Bool.noConfusion) equal
    | use =>
        obtain ⟨value, value', rfl, rfl, equal⟩ := exists_one_like right same
        exact .use (ready.resolve_left Bool.noConfusion) equal
  · -- With a wrong number of values, both report the same number.
    rw [work_of_length_ne right, work_of_length_ne (lengths ▸ right), lengths]
    exact .give rfl

end Primitive

namespace Machine

/-- Machines that show the same but for places, and have the same limit. -/
structure Like (first second : Machine) : Prop where
  stack : first.stack.map Value.unplaced = second.stack.map Value.unplaced
  alerts : first.host.alerts = second.host.alerts
  limit : first.limit = second.limit

/-- The names of the words being called, innermost first. -/
def callers (machine : Machine) : List String := machine.calls.map (·.word)

end Machine

/-! ## Going abreast -/

/-- The frames that two executions stand on, with the names of the calls that were open before. -/
structure Ground where
  frames : List Frame
  frames' : List Frame
  callers : List String
  callers' : List String
  /-- The machines of the two executions have the same sight. -/
  sighted : Prop
  /-- Executions that are to agree whatever they call have the same room for calls. -/
  even : sighted → callers'.length = callers.length
  /-- The second execution has no more than one call more to carry. -/
  deeper : callers'.length ≤ callers.length + 1

/-- Machines that show the same but for places, and see the same where that is asked for. -/
structure Ground.Like (ground : Ground) (first second : Machine) : Prop
    extends first.Like second where
  sight : ground.sighted → first.sight = second.sight

/-- Frames that are the same but for places down to the ground, with the names of the calls. -/
inductive Atop (ground : Ground) :
    (frames frames' : List Frame) → (callers callers' : List String) → Prop
  | ground : Atop ground ground.frames ground.frames' ground.callers ground.callers'
  | code {rest rest' : Code} {frames frames' : List Frame} {callers callers' : List String}
      (same : Code.unplaced rest = Code.unplaced rest')
      (under : Atop ground frames frames' callers callers') :
      Atop ground (.code rest :: frames) (.code rest' :: frames') callers callers'
  | call {pending pending' : Pending} {frames frames' : List Frame}
      {callers callers' : List String} {name : String} (same : pending.Like pending')
      (under : Atop ground frames frames' callers callers') :
      Atop ground (.call pending :: frames) (.call pending' :: frames')
        (name :: callers) (name :: callers')

/-- Two executions that have come to the same, but for places, from the ground up. -/
structure Abreast (ground : Ground) (first second : Execution) : Prop where
  frames : Atop ground first.frames second.frames first.machine.callers second.machine.callers
  machine : ground.Like first.machine second.machine
  fault : first.fault.map (·.cause) = second.fault.map (·.cause)

/-- Two machines inside a call, with the frames under it. -/
structure Inside (ground : Ground) (first : Machine) (frames : List Frame) (second : Machine)
    (frames' : List Frame) : Prop where
  called : ∃ name callers callers', first.callers = name :: callers ∧
    second.callers = name :: callers' ∧ Atop ground frames frames' callers callers'
  machine : ground.Like first second

namespace Inside

variable {ground : Ground} {first second : Machine} {frames frames' : List Frame}

theorem withStack (inside : Inside ground first frames second frames')
    {stack stack' : List Value} (same : stack.map Value.unplaced = stack'.map Value.unplaced) :
    Inside ground { first with stack } frames { second with stack := stack' } frames' :=
  ⟨inside.called, ⟨same, inside.machine.alerts, inside.machine.limit⟩, inside.machine.sight⟩

/-- The same is left to do in the call. -/
theorem abreast (inside : Inside ground first frames second frames') {pending pending' : Pending}
    (same : pending.Like pending') :
    Abreast ground ⟨first, .call pending :: frames, none⟩
      ⟨second, .call pending' :: frames', none⟩ := by
  obtain ⟨name, callers, callers', names, names', under⟩ := inside.called
  refine ⟨?_, inside.machine, rfl⟩
  rw [names, names']
  exact .call same under

/-- The same code is to be run in the call before that. -/
theorem abreast_code (inside : Inside ground first frames second frames')
    {pending pending' : Pending} (same : pending.Like pending') {code code' : Code}
    (codes : Code.unplaced code = Code.unplaced code') :
    Abreast ground ⟨first, .code code :: .call pending :: frames, none⟩
      ⟨second, .code code' :: .call pending' :: frames', none⟩ :=
  ⟨.code codes (inside.abreast same).frames, inside.machine, rfl⟩

theorem fail (inside : Inside ground first frames second frames') (cause : Cause) :
    Abreast ground ⟨first, .call .nothing :: frames, some (first.fault cause)⟩
      ⟨second, .call .nothing :: frames', some (second.fault cause)⟩ :=
  ⟨(inside.abreast .nothing).frames, inside.machine, rfl⟩

/-- Checks with the same outcome, but for what is forgotten. -/
theorem check {α β : Type} (inside : Inside ground first frames second frames') (forget : α → β)
    {checked checked' : Except Cause α} (same : checked.map forget = checked'.map forget)
    {next next' : α → Execution}
    (go : ∀ value value', forget value = forget value' →
      Abreast ground (next value) (next' value')) :
    Abreast ground (Execution.check checked first (.call .nothing :: frames) next)
      (Execution.check checked' second (.call .nothing :: frames') next') := by
  cases checked with
  | error cause =>
      cases checked' with
      | error cause' =>
          obtain rfl : cause = cause' := Except.error.inj same
          exact inside.fail cause
      | ok value' => cases same
  | ok value =>
      cases checked' with
      | error cause' => cases same
      | ok value' => exact go value value' (Except.ok.inj same)

theorem continueLoop (inside : Inside ground first frames second frames') {loop loop' : Loop}
    (loops : loop.Like loop') {quotation quotation' : Code}
    (quotations : Code.unplaced quotation = Code.unplaced quotation') {items items' : Code}
    (same : Code.unplaced items = Code.unplaced items') :
    Abreast ground (Execution.continueLoop loop quotation items first frames)
      (Execution.continueLoop loop' quotation' items' second frames') := by
  match items, items' with
  | [], [] =>
      refine (inside.withStack ?_).abreast .nothing
      rw [List.map_cons, List.map_cons, loops.outcome, inside.machine.stack]
  | item :: rest, item' :: rest' =>
      obtain ⟨same, rests⟩ := List.cons.inj same
      have values : item.value.map Value.unplaced = item'.value.map Value.unplaced := by
        rw [← Instruction.value_unplaced, same, Instruction.value_unplaced]
      refine inside.check Value.unplaced values fun value value' equal => ?_
      refine (inside.withStack ?_).abreast_code (.loop loops quotations same rests) quotations
      rw [List.map_append, List.map_append, List.map_reverse, List.map_reverse,
        loops.arguments equal, inside.machine.stack]
  | [], _ :: _ => cases same
  | _ :: _, [] => cases same

/-- The result of checking that a value is a list. -/
theorem asList_same {value value' : Value} (same : value.unplaced = value'.unplaced) :
    value.asList.map Code.unplaced = value'.asList.map Code.unplaced := by
  rw [← Value.asList_unplaced, same, Value.asList_unplaced]

/-- A text is read as the same code by machines that see the same. -/
theorem read (inside : Inside ground first frames second frames') (seen : ground.sighted)
    (name source : String) :
    Abreast ground (Execution.read name source first (.call .nothing :: frames))
      (Execution.read name source second (.call .nothing :: frames')) := by
  have noted : Inside ground
      { first with
        diagnostics := first.diagnostics ++ (Code.ofSource first.bind name source).2 } frames
      { second with
        diagnostics := second.diagnostics ++ (Code.ofSource second.bind name source).2 } frames' :=
    ⟨inside.called, ⟨inside.machine.stack, inside.machine.alerts, inside.machine.limit⟩,
      inside.machine.sight⟩
  exact noted.abreast_code .nothing
    (Machine.ofSource_of_sight (inside.machine.sight seen) name source)

theorem define (inside : Inside ground first frames second frames') {body body' : Code}
    (bodies : Code.unplaced body = Code.unplaced body') (name : String) :
    Inside ground (first.define name body) frames (second.define name body') frames' := by
  refine ⟨inside.called,
    ⟨inside.machine.stack, inside.machine.alerts, inside.machine.limit⟩, fun seen => ?_⟩
  rw [Machine.sight_define, Machine.sight_define, inside.machine.sight seen, bodies]

/-- The same value is rendered in the same way. -/
theorem render_same {value value' : Value} (same : value.unplaced = value'.unplaced) :
    value.render = value'.render := by
  rw [← Value.render_unplaced, same, Value.render_unplaced]

theorem alert (inside : Inside ground first frames second frames') (text : String) :
    Inside ground
      { first with host := { first.host with alerts := first.host.alerts.push text } } frames
      { second with host := { second.host with alerts := second.host.alerts.push text } } frames' :=
  ⟨inside.called, ⟨inside.machine.stack, by simp [inside.machine.alerts], inside.machine.limit⟩,
    inside.machine.sight⟩

theorem request (inside : Inside ground first frames second frames') (name : String) :
    Inside ground
      { first with host := { first.host with requests := first.host.requests.push name } } frames
      { second with host := { second.host with requests := second.host.requests.push name } }
      frames' :=
  ⟨inside.called, ⟨inside.machine.stack, inside.machine.alerts, inside.machine.limit⟩,
    fun seen => congrArg (Sight.request · name) (inside.machine.sight seen)⟩

/-- Works that are the same are begun in the same way. -/
theorem perform (inside : Inside ground first frames second frames') {work work' : Work}
    (same : work.Like ground.sighted work') :
    Abreast ground (Execution.perform work first frames)
      (Execution.perform work' second frames') := by
  cases same with
  | give same =>
      refine inside.check _ same fun values values' equal =>
        (inside.withStack ?_).abreast .nothing
      rw [List.map_append, List.map_append, List.map_reverse, List.map_reverse, equal,
        inside.machine.stack]
  | dip same quotations =>
      exact inside.check _ (asList_same quotations) fun code code' equal =>
        inside.abreast_code (.restore same) equal
  | loop loops lists quotations =>
      exact inside.check _ (asList_same lists) fun items items' equal =>
        inside.check _ (asList_same quotations) fun code code' equal' =>
          inside.continueLoop loops equal' equal
  | @define quotation quotation' name name' quotations names =>
      have texts : name.asString.map id = name'.asString.map id := by
        rw [← Value.asString_unplaced name, names, Value.asString_unplaced]
      refine inside.check _ (asList_same quotations) fun body body' bodies =>
        inside.check id texts fun text text' equal => ?_
      obtain rfl : text = text' := equal
      cases nameProblem? text with
      | some reason => exact inside.fail (.invalidName text reason)
      | none => exact (inside.define bodies text).abreast .nothing
  | @alert value value' same =>
      rw [Execution.perform, Execution.perform, render_same same]
      exact (inside.alert value'.render).abreast .nothing
  | words seen =>
      refine (inside.withStack ?_).abreast .nothing
      have listed :
          Value.unplaced (.list first.wordList) = Value.unplaced (.list second.wordList) :=
        congrArg Value.list (Machine.wordList_of_sight (inside.machine.sight seen))
      rw [List.map_cons, List.map_cons, listed, inside.machine.stack]
  | code seen same => exact inside.abreast_code .nothing same
  | source seen source => exact inside.read seen "<eval>" source
  | @use seen value value' same =>
      have fetch : first.host.fetch = second.host.fetch :=
        congrArg Sight.fetch (inside.machine.sight seen)
      have asked := inside.request value'.render
      rw [Execution.perform, Execution.perform, fetch, render_same same]
      cases second.host.fetch value'.render with
      | some source => exact asked.read seen value'.render source
      | none => exact asked.fail (.unknownCode value'.render)

theorem split?_unplaced (count : Nat) (taken stack : List Value) :
    split? count (taken.map Value.unplaced) (stack.map Value.unplaced) =
      (split? count taken stack).map
        (Prod.map (List.map Value.unplaced) (List.map Value.unplaced)) := by
  induction count generalizing taken stack with
  | zero => rfl
  | succ count ih =>
      cases stack with
      | nil => rfl
      | cons value stack => exact ih (value :: taken) stack

/-- The same arguments are found, or missed. -/
theorem arguments (like : first.Like second) (name : String) (count : Nat) :
    (Execution.arguments name count first).map
        (Prod.map (List.map Value.unplaced) (List.map Value.unplaced)) =
      (Execution.arguments name count second).map
        (Prod.map (List.map Value.unplaced) (List.map Value.unplaced)) := by
  have split := split?_unplaced count [] first.stack
  rw [like.stack, split?_unplaced count [] second.stack] at split
  have length : first.stack.length = second.stack.length := by
    simpa using congrArg List.length like.stack
  rw [Execution.arguments, Execution.arguments, length]
  cases found : split? count [] first.stack with
  | none =>
      cases found' : split? count [] second.stack with
      | none => rfl
      | some parts' => simp [found, found'] at split
  | some parts =>
      cases found' : split? count [] second.stack with
      | none => simp [found, found'] at split
      | some parts' =>
          rw [found, found'] at split
          exact congrArg Except.ok (Option.some.inj split).symm

/-- The same value is on top of the stack, or missed by the same word. -/
theorem top (inside : Inside ground first frames second frames') :
    (Execution.top first).map (Prod.map Value.unplaced (List.map Value.unplaced)) =
      (Execution.top second).map (Prod.map Value.unplaced (List.map Value.unplaced)) := by
  obtain ⟨name, callers, callers', names, names', -⟩ := inside.called
  have stack := inside.machine.stack
  have word (machine : Machine) (callers : List String)
      (open' : machine.callers = name :: callers) :
      machine.calls.head?.map (·.word) = some name := by
    rw [← List.head?_map]
    exact congrArg List.head? open'
  rw [Execution.top, Execution.top, word first callers names, word second callers' names']
  match found : first.stack, found' : second.stack with
  | [], [] => rfl
  | value :: rest, value' :: rest' =>
      rw [found, found'] at stack
      obtain ⟨equal, rests⟩ := List.cons.inj stack
      exact congrArg Except.ok (Prod.ext equal rests)
  | [], _ :: _ => simp [found, found'] at stack
  | _ :: _, [] => simp [found, found'] at stack

/-- Words that are the same are begun in the same way. -/
theorem begin (inside : Inside ground first frames second frames') {word word' : Word}
    (same : word.unplaced = word'.unplaced) (ready : word.isReflective = false ∨ ground.sighted) :
    Abreast ground (Execution.begin word first frames)
      (Execution.begin word' second frames') := by
  obtain ⟨name, handler⟩ := word
  obtain ⟨name', handler'⟩ := word'
  obtain ⟨rfl, handlers⟩ := Word.mk.inj same
  cases handler with
  | primitive primitive =>
      cases handler' with
      | primitive primitive' =>
          obtain rfl : primitive = primitive' := Handler.primitive.inj handlers
          refine inside.check _ (arguments inside.machine.toLike name primitive.arity)
            fun parts parts' equal => ?_
          obtain ⟨values, stack⟩ := Prod.mk.inj equal
          exact (inside.withStack stack).perform (Primitive.work_like ready values)
      | secondary body' => cases handlers
  | secondary body =>
      cases handler' with
      | primitive primitive' => cases handlers
      | secondary body' => exact inside.abreast_code .nothing (Handler.secondary.inj handlers)

end Inside

namespace Execution

variable {ground : Ground}

theorem length_le_of_atop {frames frames' : List Frame} {callers callers' : List String}
    (atop : Atop ground frames frames' callers callers') :
    callers'.length ≤ callers.length + 1 := by
  induction atop with
  | ground => exact ground.deeper
  | code _ _ ih => exact ih
  | call _ _ ih => simpa using ih

/-- Executions that see the same have the same number of calls open. -/
theorem length_eq_of_atop (seen : ground.sighted) {frames frames' : List Frame}
    {callers callers' : List String} (atop : Atop ground frames frames' callers callers') :
    callers'.length = callers.length := by
  induction atop with
  | ground => exact ground.even seen
  | code _ _ ih => exact ih
  | call _ _ ih => simpa using ih

/-- A word is called by both if it reads no state and there is room for one more call inside. If
both see the same, any word is called by both, or by neither. -/
theorem abreast_enter {first second : Machine} {frames frames' : List Frame}
    (here : Abreast ground ⟨first, frames, none⟩ ⟨second, frames', none⟩) {word word' : Word}
    (ready : word.isReflective = false ∧ first.calls.length + 1 < first.limit ∨ ground.sighted)
    (same : word.unplaced = word'.unplaced) (site site' : Location) :
    Abreast ground (enter site word first frames) (enter site' word' second frames') := by
  have deeper : second.calls.length ≤ first.calls.length + 1 := by
    simpa [Machine.callers] using length_le_of_atop here.frames
  have even : ground.sighted → second.calls.length = first.calls.length := fun seen => by
    simpa [Machine.callers] using length_eq_of_atop seen here.frames
  have limit : first.limit = second.limit := here.machine.limit
  have name : word.name = word'.name := by
    rw [← Word.name_unplaced, same, Word.name_unplaced]
  have inside : Inside ground
      { first with location := some site, calls := ⟨word.name, site⟩ :: first.calls } frames
      { second with location := some site', calls := ⟨word'.name, site'⟩ :: second.calls }
      frames' :=
    ⟨⟨word.name, first.callers, second.callers, rfl, by rw [name]; rfl, here.frames⟩,
      ⟨here.machine.stack, here.machine.alerts, limit⟩, here.machine.sight⟩
  rcases ready with ⟨plain, room⟩ | seen
  · -- The room that is left inside the call is enough for the second, which may be a call deeper.
    rw [enter, if_neg (by omega), enter, if_neg (by omega)]
    exact inside.begin same (.inl plain)
  · have even := even seen
    by_cases full : first.limit ≤ first.calls.length
    · rw [enter, if_pos full, enter, if_pos (by omega), limit]
      exact ⟨here.frames, here.machine, rfl⟩
    · rw [enter, if_neg full, enter, if_neg (by omega)]
      exact inside.begin same (.inr seen)

/-- Instructions that are the same are followed in the same way. -/
theorem abreast_follow {first second : Machine} {frames frames' : List Frame}
    (here : Abreast ground ⟨first, frames, none⟩ ⟨second, frames', none⟩)
    {instruction instruction' : Instruction}
    (same : instruction.unplaced = instruction'.unplaced)
    (ready : (∀ word, instruction.element = .word word →
      word.isReflective = false ∧ first.calls.length + 1 < first.limit) ∨ ground.sighted) :
    Abreast ground (follow instruction first frames) (follow instruction' second frames') := by
  obtain ⟨location, element⟩ := instruction
  obtain ⟨location', element'⟩ := instruction'
  have same : element.unplaced = element'.unplaced := (Instruction.mk.inj same).2
  have visited : Abreast ground
      ⟨{ first with location := location.or first.location }, frames, none⟩
      ⟨{ second with location := location'.or second.location }, frames', none⟩ :=
    ⟨here.frames, ⟨⟨here.machine.stack, here.machine.alerts, here.machine.limit⟩,
      here.machine.sight⟩, rfl⟩
  have pushed {value value' : Value} (equal : value.unplaced = value'.unplaced) :
      Abreast ground
        ⟨{ first with
            location := location.or first.location, stack := value :: first.stack }, frames, none⟩
        ⟨{ second with
            location := location'.or second.location, stack := value' :: second.stack }, frames',
          none⟩ :=
    ⟨here.frames, ⟨⟨by simp only [List.map_cons, equal, here.machine.stack],
      here.machine.alerts, here.machine.limit⟩, here.machine.sight⟩, rfl⟩
  -- What is the same but for places was made by the same constructor.
  cases element with
  | word word =>
      cases element' with
      | word word' =>
          exact abreast_enter visited (ready.imp_left fun ready => ready word rfl)
            (Element.word.inj same) _ _
      | literal | quote | unknown => cases same
  | literal text value =>
      cases element' with
      | literal text' value' => exact pushed (Element.literal.inj same).2
      | word | quote | unknown => cases same
  | quote code =>
      cases element' with
      | quote code' =>
          exact pushed (congrArg Value.list (Element.quote.inj same))
      | word | literal | unknown => cases same
  | unknown text =>
      cases element' with
      | unknown text' => exact visited
      | word | literal | quote => cases same

/-- The word that is called next, if one is. -/
def calling? (execution : Execution) : Option Word :=
  match execution.frames, execution.fault with
  | .code (⟨_, .word word⟩ :: _) :: _, none => some word
  | _, _ => none

/-- There is room for one more call than are open, and no word that reads the state is called. -/
structure Calm (execution : Execution) : Prop where
  room : execution.machine.calls.length < execution.machine.limit
  plain : ∀ word, execution.calling? = some word → word.isReflective = false

/-! ### Open calls -/

theorem calls_check {α : Type} (checked : Except Cause α) (machine : Machine)
    (frames : List Frame) {next : α → Execution}
    (same : ∀ value, (next value).machine.calls = machine.calls) :
    (check checked machine frames next).machine.calls = machine.calls := by
  cases checked with
  | error cause => rfl
  | ok value => exact same value

theorem calls_perform (work : Work) (machine : Machine) (frames : List Frame) :
    (perform work machine frames).machine.calls = machine.calls := by
  cases work with
  | give results => exact calls_check _ _ _ fun values => rfl
  | dip x quotation => exact calls_check _ _ _ fun code => rfl
  | loop loop list quotation =>
      refine calls_check _ _ _ fun items => calls_check _ _ _ fun code => ?_
      cases items with
      | nil => rfl
      | cons item rest => exact calls_check _ _ _ fun value => rfl
  | define quotation name =>
      refine calls_check _ _ _ fun body => calls_check _ _ _ fun text => ?_
      cases nameProblem? text <;> rfl
  | use value =>
      rw [perform]
      cases machine.host.fetch value.render <;> rfl
  | words | code | source | alert => rfl

/-- Calling a word adds one call to the list. -/
theorem length_calls_enter (site : Location) (word : Word) (machine : Machine)
    (frames : List Frame) (room : machine.calls.length < machine.limit) :
    (enter site word machine frames).machine.calls.length = machine.calls.length + 1 := by
  rw [enter, if_neg (Nat.not_le.2 room), begin]
  cases word.handler with
  | secondary body => rfl
  | primitive primitive =>
      refine congrArg List.length (calls_check _ _ _ fun parts => ?_)
      exact calls_perform ..

/-- A calm execution that calls a word, and is calm in it too, has room for another call there. -/
theorem ready_of_calm {machine : Machine} {instruction : Instruction} {rest : Code}
    {frames : List Frame} (calm : Calm ⟨machine, .code (instruction :: rest) :: frames, none⟩)
    (next : Calm (step ⟨machine, .code (instruction :: rest) :: frames, none⟩)) :
    ∀ word, instruction.element = .word word →
      word.isReflective = false ∧ machine.calls.length + 1 < machine.limit := by
  obtain ⟨location, element⟩ := instruction
  rintro word rfl
  refine ⟨calm.plain word rfl, ?_⟩
  have limit := congrArg Machine.Base.limit (becomes_step
    ⟨machine, .code (⟨location, .word word⟩ :: rest) :: frames, none⟩).base_eq
  have entered := length_calls_enter
    ((location.or (location.or machine.location)).getD .unspecified) word
    { machine with location := location.or machine.location } (.code rest :: frames) calm.room
  rw [← entered]
  exact Nat.lt_of_lt_of_eq next.room limit

/-! ### One step -/

/-- Taking the innermost call off. -/
theorem callers_tail {machine : Machine} {name : String} {callers : List String}
    (open' : machine.callers = name :: callers) :
    Machine.callers { machine with calls := machine.calls.tail } = callers := by
  rw [Machine.callers, List.map_tail]
  exact congrArg List.tail open'

/-- A step keeps two executions abreast that are calm or see the same, unless they have come down to
the ground. -/
theorem abreast_step {first second : Execution} (abreast : Abreast ground first second)
    (going : first.fault = none) (ready : first.Calm ∧ first.step.Calm ∨ ground.sighted) :
    ¬ first.isOver ∧ Abreast ground first.step second.step ∨
      first.frames = ground.frames ∧ second.frames = ground.frames' ∧
        first.machine.callers = ground.callers ∧ second.machine.callers = ground.callers' := by
  obtain ⟨machine, frames, fault⟩ := first
  obtain ⟨machine', frames', fault'⟩ := second
  obtain rfl : fault = none := going
  obtain ⟨atop, like, causes⟩ := abreast
  obtain rfl : fault' = none := by
    cases fault' with
    | none => rfl
    | some fault' => cases causes
  simp only at atop like
  generalize names : machine.callers = callers at atop
  generalize names' : machine'.callers = callers' at atop
  -- The innermost frames are followed in both, or there are none above the ground.
  cases atop with
  | ground => exact .inr ⟨rfl, rfl, rfl, rfl⟩
  | @code rest rest' frames frames' _ _ same under =>
      subst names names'
      refine .inl ⟨List.cons_ne_nil _ _, ?_⟩
      match rest, rest' with
      | [], [] => exact ⟨under, like, rfl⟩
      | instruction :: rest, instruction' :: rest' =>
          obtain ⟨same, rests⟩ := List.cons.inj same
          exact abreast_follow ⟨.code rests under, like, rfl⟩ same
            (ready.imp_left fun calm => ready_of_calm calm.1 calm.2)
      | [], _ :: _ => cases same
      | _ :: _, [] => cases same
  | @call pending pending' frames frames' callers callers' name same under =>
      refine .inl ⟨List.cons_ne_nil _ _, ?_⟩
      have inside : Inside ground machine frames machine' frames' :=
        ⟨⟨name, callers, callers', names, names', under⟩, like⟩
      cases same with
      | nothing =>
          refine ⟨?_, ⟨⟨like.stack, like.alerts, like.limit⟩, like.sight⟩, rfl⟩
          show Atop ground frames frames'
            (Machine.callers { machine with calls := machine.calls.tail })
            (Machine.callers { machine' with calls := machine'.calls.tail })
          rw [callers_tail names, callers_tail names']
          exact under
      | restore same =>
          refine (inside.withStack ?_).abreast .nothing
          rw [List.map_cons, List.map_cons, same, like.stack]
      | loop loops quotations items rests =>
          refine inside.check _ inside.top fun split split' equal => ?_
          obtain ⟨results, under⟩ := Prod.mk.inj equal
          exact (inside.withStack under).continueLoop (loops.gather items results) quotations rests

end Execution

end LiveStack
