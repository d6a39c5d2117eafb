import LiveStack.Proofs.Run.Abreast

/-!
# A word in place of its body

Code that calls a word does the same as code that holds the word's body in its place, but for
places. The two executions go abreast up to the call, through the body, and behind it; in between
the one that calls opens and closes a call more. So the one with the body must leave room for one
call more than it opens.
-/

namespace LiveStack

open Run

namespace Execution

/-! ## Coming to the same end -/

/-- Two executions come to ends that show the same but for places, with the same success or the
same cause of failure. -/
def Meets (first second : Execution) : Prop :=
  ∃ count count', (first.after count).isOver ∧ (second.after count').isOver ∧
    (first.after count).machine.Like (second.after count').machine ∧
    (first.after count).fault.map (·.cause) = (second.after count').fault.map (·.cause)

theorem Meets.head {first second : Execution} (meets : Meets first.step second.step) :
    Meets first second := by
  obtain ⟨count, count', meets⟩ := meets
  exact ⟨count + 1, count' + 1, meets⟩

theorem Meets.second {first second : Execution} (meets : Meets first second.step) :
    Meets first second := by
  obtain ⟨count, count', meets⟩ := meets
  exact ⟨count, count' + 1, meets⟩

/-- A fault takes all frames off and changes nothing but the call list. -/
theorem exists_unwound (fault : Fault) (machine : Machine) (frames : List Frame) :
    ∃ count calls, after ⟨machine, frames, some fault⟩ count =
      ⟨{ machine with calls }, [], some fault⟩ := by
  induction frames generalizing machine with
  | nil => exact ⟨0, machine.calls, rfl⟩
  | cons frame frames ih =>
      cases frame with
      | code rest =>
          obtain ⟨count, calls, unwound⟩ := ih machine
          exact ⟨count + 1, calls, unwound⟩
      | call pending =>
          obtain ⟨count, calls, unwound⟩ := ih { machine with calls := machine.calls.tail }
          exact ⟨count + 1, calls, unwound⟩

/-- Faults of one cause come to the same end, whatever was left to do. -/
theorem meets_of_fault {first second : Machine} (like : first.Like second) {fault fault' : Fault}
    (same : fault.cause = fault'.cause) (frames frames' : List Frame) :
    Meets ⟨first, frames, some fault⟩ ⟨second, frames', some fault'⟩ := by
  obtain ⟨count, calls, unwound⟩ := exists_unwound fault first frames
  obtain ⟨count', calls', unwound'⟩ := exists_unwound fault' second frames'
  refine ⟨count, count', ?_⟩
  rw [unwound, unwound']
  exact ⟨rfl, rfl, ⟨like.stack, like.alerts, like.limit⟩, congrArg some same⟩

/-- The results of executions that come to the same end. -/
theorem Meets.settled {first second : Execution} (meets : Meets first second)
    {result result' : EStateM.Result Fault Machine Unit} (ends : EndsIn first result)
    (ends' : EndsIn second result') :
    (settle result []).machine.Like (settle result' []).machine ∧
      (settle result []).fault.map (·.cause) = (settle result' []).fault.map (·.cause) := by
  obtain ⟨count, count', idle, idle', like, causes⟩ := meets
  rw [ends.of_isOver idle, ends'.of_isOver idle'] at like causes
  exact ⟨like, causes⟩

/-- If the first execution is calm all along and ends, the second comes to the same end. -/
def Agrees (first second : Execution) : Prop :=
  (∀ count, (first.after count).Calm) → (∃ count, (first.after count).isOver) →
    Meets first second

theorem ends_step {execution : Execution} (ends : ∃ count, (execution.after count).isOver) :
    ∃ count, (execution.step.after count).isOver := by
  obtain ⟨count, ends⟩ := ends
  refine ⟨count, ?_⟩
  have idle : execution.after (count + 1) = execution.after count := by
    rw [after_add]
    exact step_of_isOver ends
  rw [← after_succ, idle]
  exact ends

theorem Agrees.head {first second : Execution} (agrees : Agrees first.step second.step) :
    Agrees first second :=
  fun calm ends => (agrees (fun count => calm (count + 1)) (ends_step ends)).head

theorem Agrees.second {first second : Execution} (agrees : Agrees first second.step) :
    Agrees first second :=
  fun calm ends => (agrees calm ends).second

theorem meets_of_stopped {ground : Ground} {first second : Execution}
    (abreast : Abreast ground first second) {fault : Fault} (stopped : first.fault = some fault) :
    Meets first second := by
  obtain ⟨machine, frames, _⟩ := first
  obtain ⟨machine', frames', fault'⟩ := second
  obtain ⟨-, like, causes⟩ := abreast
  obtain rfl := stopped
  cases fault' with
  | none => cases causes
  | some fault' => exact meets_of_fault like.toLike (Option.some.inj causes) frames frames'

theorem agrees_of_grounded {ground : Ground} {first second : Execution}
    (abreast : Abreast ground first second)
    (landing : ∀ machine machine' : Machine, machine.Like machine' →
      machine.callers = ground.callers → machine'.callers = ground.callers' →
      Agrees ⟨machine, ground.frames, none⟩ ⟨machine', ground.frames', none⟩)
    (going : first.fault = none)
    (grounded : first.frames = ground.frames ∧ second.frames = ground.frames' ∧
      first.machine.callers = ground.callers ∧ second.machine.callers = ground.callers') :
    Agrees first second := by
  obtain ⟨machine, frames, _⟩ := first
  obtain ⟨machine', frames', fault'⟩ := second
  obtain ⟨rfl, rfl, callers, callers'⟩ := grounded
  obtain rfl := going
  cases fault' with
  | none => exact landing machine machine' abreast.machine.toLike callers callers'
  | some fault' => cases abreast.fault

/-- Executions that go abreast agree if they do where they stand on the ground. -/
theorem agrees_of_abreast {ground : Ground}
    (landing : ∀ machine machine' : Machine, machine.Like machine' →
      machine.callers = ground.callers → machine'.callers = ground.callers' →
      Agrees ⟨machine, ground.frames, none⟩ ⟨machine', ground.frames', none⟩)
    {first second : Execution} (abreast : Abreast ground first second) :
    Agrees first second := by
  -- By induction on the steps to the end of the first: a step keeps them abreast, or they are on
  -- the ground, where `landing` takes over.
  rintro calm ⟨count, ends⟩
  induction count generalizing first second with
  | zero =>
      cases going : first.fault with
      | some fault => exact meets_of_stopped abreast going
      | none =>
          rcases abreast_step abreast going (.inl ⟨calm 0, calm 1⟩) with ⟨busy, -⟩ | grounded
          · exact absurd ends busy
          · exact agrees_of_grounded abreast landing going grounded calm ⟨0, ends⟩
  | succ count ih =>
      cases going : first.fault with
      | some fault => exact meets_of_stopped abreast going
      | none =>
          rcases abreast_step abreast going (.inl ⟨calm 0, calm 1⟩) with ⟨-, further⟩ | grounded
          · exact (ih further (fun count => calm (count + 1)) ends).head
          · exact agrees_of_grounded abreast landing going grounded calm ⟨count + 1, ends⟩

/-- The first execution stands on its frames with no call open, the second with one at most. -/
def Ground.shallow (frames frames' : List Frame) (callers' : List String)
    (deeper : callers'.length ≤ 1) : Ground where
  frames := frames
  frames' := frames'
  callers := []
  callers' := callers'
  sighted := False
  even := False.elim
  deeper := deeper

/-- Code that both executions have before them, in front of other code, is run by both. -/
theorem agrees_of_code {code code' : Code} (same : Code.unplaced code = Code.unplaced code')
    {rest rest' : Code} {beyond : List Frame} {callers' : List String}
    (deeper : callers'.length ≤ 1)
    (landing : ∀ machine machine' : Machine, machine.Like machine' → machine.callers = [] →
      machine'.callers = callers' →
      Agrees ⟨machine, [.code rest], none⟩ ⟨machine', .code rest' :: beyond, none⟩)
    {machine machine' : Machine} (like : machine.Like machine') (top : machine.callers = [])
    (top' : machine'.callers = callers') :
    Agrees ⟨machine, [.code (code ++ rest)], none⟩
      ⟨machine', .code (code' ++ rest') :: beyond, none⟩ := by
  induction code generalizing code' machine machine' with
  | nil =>
      cases code' with
      | nil => exact landing machine machine' like top top'
      | cons instruction' code' => cases same
  | cons instruction code ih =>
      cases code' with
      | nil => cases same
      | cons instruction' code' =>
          obtain ⟨same, sames⟩ := List.cons.inj same
          have here : Abreast (Ground.shallow [.code (code ++ rest)]
                (.code (code' ++ rest') :: beyond) callers' deeper)
              ⟨machine, [.code (code ++ rest)], none⟩
              ⟨machine', .code (code' ++ rest') :: beyond, none⟩ :=
            ⟨by rw [top, top']; exact .ground, ⟨like, False.elim⟩, rfl⟩
          -- Only a calm execution has room for the call that the instruction may be.
          intro calm
          have further := abreast_follow here same (.inl (ready_of_calm (calm 0) (calm 1)))
          have agrees : Agrees ⟨machine, [.code (instruction :: (code ++ rest))], none⟩
              ⟨machine', .code (instruction' :: (code' ++ rest')) :: beyond, none⟩ :=
            .head (agrees_of_abreast (fun _ _ like top top' => ih sames like top top') further)
          exact agrees calm

/-! ## The call -/

/-- Calling a defined word puts its body in front of the code behind the call. -/
theorem step_call {machine : Machine} (room : machine.calls.length < machine.limit)
    (place : Option Location) (name : String) (body rest : Code) (frames : List Frame) :
    ∃ site, step ⟨machine, .code (⟨place, .word ⟨name, .secondary body⟩⟩ :: rest) :: frames, none⟩ =
      ⟨{ machine with location := some site, calls := ⟨name, site⟩ :: machine.calls },
        .code body :: .call .nothing :: .code rest :: frames, none⟩ :=
  ⟨(place.or (place.or machine.location)).getD .unspecified, if_neg (Nat.not_le.2 room)⟩

/-- Code that calls a word does the same as code with the word's body in its place. -/
theorem agrees_of_body {front front' body body' back back' : Code}
    (fronts : Code.unplaced front = Code.unplaced front')
    (bodies : Code.unplaced body = Code.unplaced body')
    (backs : Code.unplaced back = Code.unplaced back') (name : String)
    (place : Option Location) {machine machine' : Machine} (like : machine.Like machine')
    (top : machine.calls = []) (top' : machine'.calls = []) :
    Agrees (ofCode machine (front ++ (body ++ back)))
      (ofCode machine' (front' ++ ⟨place, .word ⟨name, .secondary body'⟩⟩ :: back')) := by
  have shallow : ([] : List String).length ≤ 1 := Nat.zero_le 1
  -- Behind the call, both have the same code before them.
  have behind (machine machine' : Machine) (like : machine.Like machine')
      (top : machine.callers = []) (top' : machine'.callers = []) :
      Agrees ⟨machine, [.code back], none⟩ ⟨machine', [.code back'], none⟩ := by
    rw [← List.append_nil back, ← List.append_nil back']
    refine agrees_of_code backs shallow (fun machine machine' like _ _ => ?_) like top top'
    exact fun _ _ => ⟨1, 1, rfl, rfl, like, rfl⟩
  -- Inside it, the second has the call open and the code behind it to come back to.
  have inside (machine machine' : Machine) (like : machine.Like machine')
      (top : machine.callers = []) (top' : machine'.callers = [name]) :
      Agrees ⟨machine, [.code (body ++ back)], none⟩
        ⟨machine', [.code body', .call .nothing, .code back'], none⟩ := by
    rw [← List.append_nil body']
    refine agrees_of_code bodies (show [name].length ≤ 1 from Nat.le_refl 1)
      (fun machine machine' like top top' => ?_) like top top'
    exact .second (.second (behind _ _ ⟨like.stack, like.alerts, like.limit⟩ top
      (callers_tail top')))
  have before {machine : Machine} (top : machine.calls = []) : machine.callers = [] := by
    rw [Machine.callers, top, List.map_nil]
  refine agrees_of_code fronts shallow (fun machine machine' like top top' => ?_) like
    (before top) (before top')
  intro calm
  have room : machine'.calls.length < machine'.limit := by
    have room := (calm 0).room
    rw [← like.limit, List.map_eq_nil_iff.1 top']
    exact Nat.lt_of_le_of_lt (Nat.zero_le _) room
  obtain ⟨site, entered⟩ := step_call room place name body' back' []
  have agrees := inside machine { machine' with
    location := some site, calls := ⟨name, site⟩ :: machine'.calls }
    ⟨like.stack, like.alerts, like.limit⟩ top (by
      show name :: machine'.callers = [name]
      rw [top'])
  rw [← entered] at agrees
  exact agrees.second calm

/-! ## Code without words -/

/-- Code that calls no words is calm all along. -/
theorem calm_of_wordless {machine : Machine} (room : machine.calls.length < machine.limit)
    {code : Code} (wordless : ∀ instruction ∈ code, ∀ word, instruction.element ≠ .word word)
    (count : Nat) : ((ofCode machine code).after count).Calm := by
  induction code generalizing machine count with
  | nil =>
      match count with
      | 0 => exact ⟨room, fun word called => by cases called⟩
      | count + 1 =>
          have idle : (ofCode machine []).step.isOver := rfl
          rw [after_succ, after_of_isOver idle]
          exact ⟨room, fun word called => by cases called⟩
  | cons instruction rest ih =>
      have rests := fun other mem => wordless other (List.mem_cons_of_mem _ mem)
      have plain := wordless instruction List.mem_cons_self
      obtain ⟨place, element⟩ := instruction
      match count with
      | 0 =>
          refine ⟨room, fun word called => ?_⟩
          cases element with
          | word bound => exact absurd rfl (plain bound)
          | literal | quote | unknown => cases called
      | count + 1 =>
          -- The element only pushes a value, or does nothing.
          have further (stack : List Value) := @ih
            { machine with location := place.or machine.location, stack } room rests count
          cases element with
          | word bound => exact absurd rfl (plain bound)
          | literal text value => exact further (value :: machine.stack)
          | quote code => exact further (.list code :: machine.stack)
          | unknown text => exact further machine.stack

/-! ## In texts -/

/-- Text with a word in it does the same as text with the word's body in its place, if the word is
the only one that means something else. -/
theorem agrees_of_text {machine machine' : Machine} (like : machine.Like machine')
    (top : machine.calls = []) (top' : machine'.calls = []) {front middle back : String}
    {before inside behind : List Lexeme}
    (first : Token.Yields front.toList before ∧ Token.Paired before)
    (second : Token.Yields middle.toList inside ∧ Token.Paired inside)
    (third : Token.Yields back.toList behind ∧ Token.Paired behind) {name : String}
    (valid : nameProblem? name = none) {tokens : List Token}
    (body : tokens.map (·.lexeme) = inside)
    (named : machine'.bind name = some ⟨name, .secondary (Code.ofTokens machine.bind tokens).1⟩)
    (others : ∀ lexeme ∈ before ++ behind, machine'.bind lexeme.text = machine.bind lexeme.text)
    (source : String) :
    Agrees (ofSource machine source (front ++ middle ++ back))
      (ofSource machine' source (front ++ (name ++ " ") ++ back)) := by
  obtain ⟨fronts, middles, backs, starts, insides, ends, reads⟩ :=
    Code.ofSource_pieces first second third machine.bind source
  obtain ⟨fronts', called, backs', starts', single, ends', reads'⟩ :=
    Code.ofSource_pieces first ⟨Token.yields_name valid, .word name⟩ third machine'.bind source
  obtain ⟨⟨lexeme, place⟩, more, rfl, rfl, nothing⟩ := List.map_eq_cons_iff.1 single
  rw [List.map_eq_nil_iff.1 nothing, Code.ofTokens_word named place] at reads'
  have same : machine.bind.Like machine.bind inside := fun _ _ => rfl
  have same₁ : machine.bind.Like machine'.bind before := fun lexeme mem => by
    rw [others lexeme (List.mem_append_left _ mem)]
  have same₂ : machine.bind.Like machine'.bind behind := fun lexeme mem => by
    rw [others lexeme (List.mem_append_right _ mem)]
  have read (machine : Machine) (text : String) : ofSource machine source text =
      ofCode { machine with
        diagnostics := machine.diagnostics ++ (Code.ofSource machine.bind source text).2 }
        (Code.ofSource machine.bind source text).1 := rfl
  rw [read, read, reads, reads']
  exact agrees_of_body (Code.ofTokens_like starts starts' same₁)
    (Code.ofTokens_like insides body same) (Code.ofTokens_like ends ends' same₂) name (some place)
    ⟨like.stack, like.alerts, like.limit⟩ top top'

/-- Texts that agree are run alike: to machines that show the same, with the same success or the
same cause of failure. -/
theorem Agrees.attempt_runSource {machine machine' : Machine} {name name' source source' : String}
    (agrees : Agrees (ofSource machine name source) (ofSource machine' name' source'))
    (calm : ∀ count, ((ofSource machine name source).after count).Calm) :
    ((Machine.runSource name source).attempt machine).1.map (·.cause) =
        ((Machine.runSource name' source').attempt machine').1.map (·.cause) ∧
      ((Machine.runSource name source).attempt machine).2.Like
        ((Machine.runSource name' source').attempt machine').2 := by
  have ends := endsIn_runSource machine name source
  have idle : ∃ count, ((ofSource machine name source).after count).isOver := by
    obtain ⟨count, ended⟩ := ends
    refine ⟨count, ?_⟩
    rw [ended count (Nat.le_refl count)]
    cases Machine.runSource name source machine <;> rfl
  obtain ⟨like, causes⟩ :=
    (agrees calm idle).settled ends (endsIn_runSource machine' name' source')
  rw [attempt_eq_settle, attempt_eq_settle]
  exact ⟨causes, like⟩

end Execution

end LiveStack
