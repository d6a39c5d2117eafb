import LiveStack.Proofs.Run.Limits
import LiveStack.Proofs.Run.Sight

/-!
# Calling a word is running its body

A call of a defined word runs the body on the machine as it is, but for one call more in the call
list and for another place. No run can tell the difference: the call list is only counted against
the limit, and names the built-in word that misses a value; a place is only noted down, in a fault
or with a definition. So two runs of the same code go at one pace if their machines are the same but
for places and for the calls that were open before, as long as the first has no more room for calls
than the second.

In front of the call and behind it the two have the same code before them. Hence a call may stand
for the body anywhere in code that is executed, and the body for the call, if the room suffices.
-/

namespace LiveStack

open Execution

namespace Machine

/-- The machines are the same but for places, open calls and the limit. -/
structure Matches (first second : Machine) : Prop where
  host : second.host = first.host
  stack : second.stack = first.stack
  dictionary : second.dictionary.unplaced = first.dictionary.unplaced
  handlers : second.handlers = first.handlers
  diagnostics : second.diagnostics = first.diagnostics

namespace Matches

variable {first second : Machine}

/-- The names mean the same. -/
theorem bind_eq (same : first.Matches second) : second.bind = first.bind := by
  have bind (machine : Machine) (name : String) : machine.bind name =
      (machine.dictionary.unplaced.get? name).bind (machine.handlers.get? ·.handler) := by
    rw [Dictionary.get?_unplaced, bind]
    cases machine.dictionary.get? name <;> rfl
  funext name
  rw [bind second, bind first, same.dictionary, same.handlers]

/-- There are the same words. -/
theorem wordList_eq (same : first.Matches second) : second.wordList = first.wordList := by
  rw [wordList, wordList, same.bind_eq, ← Dictionary.names_unplaced second.dictionary,
    same.dictionary, Dictionary.names_unplaced]

/-- Places, open calls and the limit make no difference. -/
theorem elsewhere (same : first.Matches second) (location location' : Option Location)
    (calls calls' : List Call) (limit limit' : Nat) :
    Matches { first with location, calls, limit }
      { second with location := location', calls := calls', limit := limit' } :=
  ⟨same.host, same.stack, same.dictionary, same.handlers, same.diagnostics⟩

theorem view_eq (same : first.Matches second) : second.view = first.view := by
  rw [view, view, same.stack, same.bind_eq, same.wordList_eq, same.host]

theorem define (same : first.Matches second) (name : String) (body : Code) :
    (first.define name body).Matches (second.define name body) := by
  refine ⟨same.host, same.stack, ?_, ?_, same.diagnostics⟩
  · simp only [Machine.define, addWord, Dictionary.unplaced, Dictionary.insert,
      Vocabulary.unplaced_insert, same.handlers]
    have whole := same.dictionary
    rw [Dictionary.unplaced, Dictionary.unplaced, Dictionary.mk.injEq] at whole
    rw [whole.1, whole.2]
    rfl
  · simp only [Machine.define, addWord, same.handlers]

theorem act (same : first.Matches second) (act : Act) :
    (act.on first).Matches (act.on second) := by
  have defines := same.define
  obtain ⟨host, stack, dictionary, handlers, diagnostics⟩ := same
  cases act with
  | stack values => exact ⟨host, rfl, dictionary, handlers, diagnostics⟩
  | visit place => exact ⟨host, stack, dictionary, handlers, diagnostics⟩
  | note faults =>
      exact ⟨host, stack, dictionary, handlers, congrArg (· ++ faults) diagnostics⟩
  | alert message =>
      exact ⟨by simp only [Act.on, host], stack, dictionary, handlers, diagnostics⟩
  | request name =>
      exact ⟨by simp only [Act.on, host], stack, dictionary, handlers, diagnostics⟩
  | define name body => exact defines name body

end Matches

/-- The machines of two runs that have opened so many calls, on top of others that may differ. The
first has no more room for calls than the second. -/
structure Aside (first : Machine) (opened : Nat) (second : Machine) : Prop
    extends first.Matches second where
  callers : (second.calls.take opened).map (·.word) = (first.calls.take opened).map (·.word)
  open_le : opened ≤ first.calls.length
  open_le' : opened ≤ second.calls.length
  room : first.limit + second.calls.length ≤ second.limit + first.calls.length

namespace Aside

variable {opened : Nat} {first second : Machine}

theorem act (here : first.Aside opened second) (act : Act) :
    (act.on first).Aside opened (act.on second) := by
  have same := here.toMatches.act act
  cases act <;> exact ⟨same, here.callers, here.open_le, here.open_le', here.room⟩

/-- Both open a call of the same word. -/
theorem call (here : first.Aside opened second) (name : String) (site site' : Location) :
    (first.opened ⟨name, site⟩).Aside (opened + 1) (second.opened ⟨name, site'⟩) := by
  have room := here.room
  refine ⟨here.elsewhere .., ?_, ?_, ?_, ?_⟩
  · exact congrArg (name :: ·) here.callers
  · exact Nat.succ_le_succ here.open_le
  · exact Nat.succ_le_succ here.open_le'
  · simp only [Machine.opened, List.length_cons]
    omega

/-- The innermost calls are of the same word, and both may come back from them. -/
theorem innermost (here : first.Aside (opened + 1) second) :
    second.caller = first.caller ∧ first.returned.Aside opened second.returned := by
  obtain ⟨same, callers, deep, deep', room⟩ := here
  obtain ⟨call, calls, list⟩ := List.exists_cons_of_length_pos (Nat.lt_of_lt_of_le (by omega) deep)
  obtain ⟨call', calls', list'⟩ :=
    List.exists_cons_of_length_pos (Nat.lt_of_lt_of_le (by omega) deep')
  rw [list, list', List.take_succ_cons, List.take_succ_cons, List.map_cons, List.map_cons,
    List.cons.injEq] at callers
  rw [list, List.length_cons] at deep room
  rw [list', List.length_cons] at deep' room
  have tail : first.returned.calls = calls := congrArg List.tail list
  have tail' : second.returned.calls = calls' := congrArg List.tail list'
  -- The innermost call is the first of the list in both, and taking it off takes one from each
  -- length.
  constructor
  · rw [caller, caller, list, list']
    exact congrArg some callers.1
  · refine ⟨same.elsewhere .., ?_, ?_, ?_, ?_⟩
    · rw [tail, tail', callers.2]
    · rw [tail]
      omega
    · rw [tail']
      omega
    · rw [tail, tail']
      show first.limit + calls'.length ≤ second.limit + calls.length
      omega

end Aside

end Machine

/-- Two runs on machines that are the same but for places and for the calls open before. -/
def Pace.upToPlaces : Pace where
  machines opened first second := first.Aside opened second
  faults fault fault' := fault'.cause = fault.cause
  overruns fault := fault.cause.IsOverrun
  view_eq here := here.view_eq
  act here := here.act
  opened here _ name := here.call name _ _
  returned here := here.innermost.2
  caller_eq here := here.innermost.1
  room here room := by
    have more := here.room
    omega
  fault _ := fun _ => rfl
  overrun _ _ := ⟨_, rfl⟩

/-! ## Code in pieces -/

namespace Machine

/-- Code in two pieces is run piece by piece. -/
theorem runCode_append (front back : Code) (machine : Machine) :
    runCode (front ++ back) machine = (runCode front >>= fun _ => runCode back) machine := by
  have pieces (call : Caller) : LiveStack.runCode call (front ++ back) =
      (LiveStack.runCode call front >>= fun _ => LiveStack.runCode call back) := by
    induction front with
    | nil => rfl
    | cons instruction front ih =>
        obtain ⟨place, element⟩ := instruction
        cases element <;> simp only [List.cons_append, LiveStack.runCode, ih, bind_assoc]
  have balanced := balanced_runCode machine front
  have whole (code : Code) : runCode code machine =
      LiveStack.runCode (callWord machine.room) code machine := rfl
  rw [whole, pieces, bind_apply, bind_apply, ← whole]
  cases ran : runCode front machine with
  | error fault last => rfl
  | ok value last =>
      rw [ran] at balanced
      have room : last.room = machine.room := room_eq_of_balanced balanced
      simp only
      rw [← room]
      rfl

/-- Code that is one call makes it from the place it has, or from the last one known. -/
theorem runCode_word (place : Option Location) (word : Word) (machine : Machine) :
    runCode [⟨place, .word word⟩] machine =
      call ((Act.visit place).on machine).site word ((Act.visit place).on machine) := by
  have twice : place.or (place.or machine.location) = place.or machine.location := by
    cases place <;> rfl
  have single : runCode [⟨place, .word word⟩] machine =
      (callWord machine.room ((place.or (place.or machine.location)).getD .unspecified) word >>=
        fun _ => pure ()) ((Act.visit place).on machine) := rfl
  rw [single, twice, bind_pure_unit]
  rfl

/-- Where there is room, a call is what the word does, run inside the call. -/
theorem call_of_room {machine : Machine} (room : machine.calls.length < machine.limit)
    (site : Location) (word : Word) :
    call site word machine =
      closed (runHandler (callWord (machine.opened ⟨word.name, site⟩).room) word
        (machine.opened ⟨word.name, site⟩)) := by
  have left : machine.room = (machine.opened ⟨word.name, site⟩).room + 1 := by
    show machine.limit - machine.calls.length = machine.limit - (machine.calls.length + 1) + 1
    omega
  have called : call site word machine = callWord machine.room site word machine := rfl
  rw [called, left]
  simp only [callWord, roomFor_eq]
  rfl

/-- Where there is room, a call of a defined word is its body, run inside the call. -/
theorem call_secondary {machine : Machine} (room : machine.calls.length < machine.limit)
    (site : Location) (name : String) (body : Code) :
    call site ⟨name, .secondary body⟩ machine =
      closed (runCode body (machine.opened ⟨name, site⟩)) :=
  call_of_room room site ⟨name, .secondary body⟩

/-- Where there is none, the call fails. -/
theorem call_of_full {machine : Machine} (full : machine.limit ≤ machine.calls.length)
    (site : Location) (word : Word) :
    call site word machine =
      .error (machine.fault (.callDepthExceeded machine.limit)) machine := by
  have called : call site word machine = callWord machine.room site word machine := rfl
  rw [called, room, Nat.sub_eq_zero_of_le full]
  rfl

end Machine

/-! ## Results -/

/-- Both runs have succeeded, or failed for the same cause, on machines that are the same but for
places, open calls and the limit. -/
inductive Matching :
    EStateM.Result Fault Machine Unit → EStateM.Result Fault Machine Unit → Prop
  | ok {last last' : Machine} (same : last.Matches last') : Matching (.ok () last) (.ok () last')
  | error {fault fault' : Fault} {last last' : Machine} (causes : fault'.cause = fault.cause)
      (same : last.Matches last') : Matching (.error fault last) (.error fault' last')

section
variable {result result' : EStateM.Result Fault Machine Unit}

/-- It makes no difference that one of the runs comes back from a call. -/
theorem Matching.closed (same : Matching result result') :
    Matching (closed result) result' ∧ Matching result (closed result') := by
  cases same with
  | ok same => exact ⟨.ok (same.elsewhere ..), .ok (same.elsewhere ..)⟩
  | error causes same => exact ⟨.error causes (same.elsewhere ..), .error causes (same.elsewhere ..)⟩

theorem overruns_closed (overruns : Overruns result) : Overruns (closed result) := by
  obtain ⟨fault, last, rfl, depth⟩ := overruns
  exact ⟨fault, _, rfl, depth⟩

namespace Pace

variable {opened : Nat} {first second : Machine}

/-- Runs at this pace have matching results, if the first is not stopped for want of room. -/
theorem Ends.matching (ends : upToPlaces.Ends opened result result') (fits : ¬ Overruns result) :
    Matching result result' := by
  cases ends with
  | overrun overruns => exact absurd ⟨_, _, rfl, overruns⟩ fits
  | ok machines => exact .ok machines.toMatches
  | error machines faults => exact .error faults machines.toMatches

/-- Matching results compare as the machines at the beginning do, since runs leave the call list as
they found it. -/
theorem ends_of_matching (here : first.Aside opened second) (balanced : Balanced first result)
    (balanced' : Balanced second result') (same : ¬ Overruns result → Matching result result') :
    upToPlaces.Ends opened result result' := by
  by_cases overruns : Overruns result
  · obtain ⟨fault, last, rfl, depth⟩ := overruns
    exact .overrun depth
  obtain ⟨calls, limit⟩ := balanced
  obtain ⟨calls', limit'⟩ := balanced'
  have after (matches' : (final result).Matches (final result')) :
      (final result).Aside opened (final result') :=
    ⟨matches', by rw [calls, calls', here.callers], by rw [calls]; exact here.open_le,
      by rw [calls']; exact here.open_le', by
        rw [calls, calls', limit, limit']
        exact here.room⟩
  cases same overruns with
  | ok matches' => exact .ok (after matches')
  | error causes matches' => exact .error (after matches') causes

/-- Runs of code in two pieces compare if the runs of the first pieces do, and those of the second
pieces behind them. -/
theorem Ends.append {pace : Pace} {front front' back back' : Code}
    (fronts : pace.Ends opened (Machine.runCode front first) (Machine.runCode front' second))
    (backs : ∀ last last', pace.machines opened last last' →
      Balanced first (.ok () last : EStateM.Result Fault Machine Unit) →
      Balanced second (.ok () last' : EStateM.Result Fault Machine Unit) →
      pace.Ends opened (Machine.runCode back last) (Machine.runCode back' last')) :
    pace.Ends opened (Machine.runCode (front ++ back) first)
      (Machine.runCode (front' ++ back') second) := by
  have balanced := balanced_runCode first front
  have balanced' := balanced_runCode second front'
  rw [Machine.runCode_append, Machine.runCode_append, bind_apply, bind_apply]
  generalize Machine.runCode front first = ran at *
  generalize Machine.runCode front' second = ran' at *
  cases fronts with
  | overrun overruns => exact .overrun overruns
  | ok machines => exact backs _ _ machines balanced balanced'
  | error machines faults => exact .error machines faults

end Pace

end

/-! ## Calls and bodies -/

section
variable {opened : Nat} {first second : Machine}

/-- A call that is not stopped for want of room ends as its body does, run in its place. -/
theorem matching_call (same : first.Matches second) (site : Location) (name : String)
    (body : Code) (room : first.limit + second.calls.length ≤ second.limit + first.calls.length)
    (fits : ¬ Overruns (Machine.call site ⟨name, .secondary body⟩ first)) :
    Matching (Machine.call site ⟨name, .secondary body⟩ first) (Machine.runCode body second) := by
  by_cases full : first.limit ≤ first.calls.length
  · exact absurd ⟨_, _, Machine.call_of_full full .., _, rfl⟩ fits
  rw [Machine.call_secondary (Nat.not_le.1 full)] at fits ⊢
  have inside : Pace.upToPlaces.machines 0 (first.opened ⟨name, site⟩) second :=
    ⟨same.elsewhere .., rfl, Nat.zero_le _, Nat.zero_le _, by
      show first.limit + second.calls.length ≤ second.limit + (first.calls.length + 1)
      omega⟩
  have ends := Pace.ends_runCode inside body
  exact (ends.matching fun overruns => fits (overruns_closed overruns)).closed.1

/-- A body that is not stopped for want of room ends as a call of it does that has more room. -/
theorem matching_body (same : first.Matches second) (site : Location) (name : String) (body : Code)
    (more : first.limit + second.calls.length < second.limit + first.calls.length)
    (room : second.calls.length < second.limit) (fits : ¬ Overruns (Machine.runCode body first)) :
    Matching (Machine.runCode body first) (Machine.call site ⟨name, .secondary body⟩ second) := by
  rw [Machine.call_secondary room]
  have inside : Pace.upToPlaces.machines 0 first (second.opened ⟨name, site⟩) :=
    ⟨same.elsewhere .., rfl, Nat.zero_le _, Nat.zero_le _, by
      show first.limit + (second.calls.length + 1) ≤ second.limit + first.calls.length
      omega⟩
  have ends := Pace.ends_runCode inside body
  exact (ends.matching fits).closed.2

variable (place : Option Location) (name : String) (body front back : Code)

/-- Code with a call in it compares with code that has the body in its place. -/
theorem ends_inlined (here : first.Aside opened second) :
    Pace.upToPlaces.Ends opened
      (Machine.runCode (front ++ ⟨place, .word ⟨name, .secondary body⟩⟩ :: back) first)
      (Machine.runCode (front ++ (body ++ back)) second) := by
  have before := Pace.ends_runCode (show Pace.upToPlaces.machines opened _ _ from here) front
  refine before.append fun last last' there _ _ => ?_
  have called : Pace.upToPlaces.Ends opened
      (Machine.runCode [⟨place, .word ⟨name, .secondary body⟩⟩] last)
      (Machine.runCode body last') := by
    refine Pace.ends_of_matching there (balanced_runCode ..) (balanced_runCode ..) fun fits => ?_
    have visited : ((Machine.Act.visit place).on last).Matches last' := there.elsewhere ..
    rw [Machine.runCode_word] at fits ⊢
    exact matching_call visited _ name body there.room fits
  exact called.append fun _ _ there _ _ => Pace.ends_runCode there back

/-- Code compares with code that has a call in the place of a part of it, and more room. -/
theorem ends_called (here : first.Aside opened second)
    (more : first.limit + second.calls.length < second.limit + first.calls.length)
    (room : second.calls.length < second.limit) :
    Pace.upToPlaces.Ends opened (Machine.runCode (front ++ (body ++ back)) first)
      (Machine.runCode (front ++ ⟨place, .word ⟨name, .secondary body⟩⟩ :: back) second) := by
  have before := Pace.ends_runCode (show Pace.upToPlaces.machines opened _ _ from here) front
  refine before.append fun last last' there balanced balanced' => ?_
  -- The runs of `front` have left the calls and the limits as they were.
  obtain ⟨calls, limit⟩ : last.calls = first.calls ∧ last.limit = first.limit := balanced
  obtain ⟨calls', limit'⟩ : last'.calls = second.calls ∧ last'.limit = second.limit := balanced'
  have called : Pace.upToPlaces.Ends opened (Machine.runCode body last)
      (Machine.runCode [⟨place, .word ⟨name, .secondary body⟩⟩] last') := by
    refine Pace.ends_of_matching there (balanced_runCode ..) (balanced_runCode ..) fun fits => ?_
    have visited : last.Matches ((Machine.Act.visit place).on last') := there.elsewhere ..
    rw [Machine.runCode_word]
    refine matching_body visited _ name body ?_ ?_ fits
    · show last.limit + last'.calls.length < last'.limit + last.calls.length
      rwa [calls, calls', limit, limit']
    · show last'.calls.length < last'.limit
      rwa [calls', limit']
  exact called.append fun _ _ there _ _ => Pace.ends_runCode there back

end

/-! ## At any moment of a run -/

/-- Where executions run code that compares, in front of the same frames, they end in matching
results, unless the first is stopped for want of room. -/
theorem Execution.matching_of_ends {first second : Machine} {code code' : Code}
    {frames : List Frame} {result : EStateM.Result Fault Machine Unit}
    (ran : EndsIn ⟨first, .code code :: frames, none⟩ result) (fits : ¬ Overruns result)
    (ends : Pace.upToPlaces.Ends (openCalls 0 frames) (Machine.runCode code first)
      (Machine.runCode code' second)) :
    ∃ result', EndsIn ⟨second, .code code' :: frames, none⟩ result' ∧ Matching result result' := by
  obtain ⟨result', ran'⟩ := exists_endsIn ⟨second, .code code' :: frames, none⟩
  have last := Pace.ends_of_beside ends.beside (ran.later (leads_runCode ..))
    (ran'.later (leads_runCode ..))
  exact ⟨result', ran', last.matching fits⟩

/-- At any moment of a run, the machine compares with the same one under a limit at least as large. -/
theorem Machine.aside_of_leads {start machine : Machine} {code : Code} {frames : List Frame}
    (leads : Leads (ofCode start code) ⟨machine, frames, none⟩) {limit : Nat}
    (le : machine.limit ≤ limit) :
    machine.Aside (openCalls 0 frames) (machine.allowing limit) := by
  obtain ⟨-, -, -, count⟩ := Pace.alone_of_leads leads
  have open_le : openCalls 0 frames ≤ machine.calls.length := by
    rw [count]
    exact Nat.le_add_left ..
  exact ⟨⟨rfl, rfl, rfl, rfl, rfl⟩, rfl, open_le, open_le, Nat.add_le_add_right le _⟩

namespace Machine

/-- Calling a word is running its body in place. A call that is not stopped for want of room ends as
the body does. At any moment of a run, a call that is to be made next or later may be replaced by
the body; and a part of the code that is to be run by a call of a word with this body, under a limit
that leaves room for it. The run then ends in the same way, but for places, call lists and the
limit. -/
theorem calling_is_running_the_body (start : Machine) (name : String) (body : Code) :
    (∀ site, ¬ Overruns (call site ⟨name, .secondary body⟩ start) →
      Matching (call site ⟨name, .secondary body⟩ start) (runCode body start)) ∧
    (∀ code machine place front back frames, ¬ Overruns (runCode code start) →
      Leads (ofCode start code)
        ⟨machine, .code (front ++ ⟨place, .word ⟨name, .secondary body⟩⟩ :: back) :: frames, none⟩ →
      ∃ result, EndsIn ⟨machine, .code (front ++ (body ++ back)) :: frames, none⟩ result ∧
        Matching (runCode code start) result) ∧
    (∀ code machine place front back frames limit, ¬ Overruns (runCode code start) →
      Leads (ofCode start code) ⟨machine, .code (front ++ (body ++ back)) :: frames, none⟩ →
      start.limit < limit → start.calls.length < limit →
      ∃ result, EndsIn ⟨machine.allowing limit,
          .code (front ++ ⟨place, .word ⟨name, .secondary body⟩⟩ :: back) :: frames, none⟩ result ∧
        Matching (runCode code start) result) := by
  refine ⟨fun site fits => ?_, fun code machine place front back frames fits leads => ?_,
    fun code machine place front back frames limit fits leads more room => ?_⟩
  · have same : start.Matches start := ⟨rfl, rfl, rfl, rfl, rfl⟩
    exact matching_call same site name body (Nat.le_refl _) fits
  · have here : machine.Aside (openCalls 0 frames) machine :=
      aside_of_leads leads (Nat.le_refl machine.limit)
    exact matching_of_ends ((endsIn_runCode start code).later leads) fits
      (ends_inlined place name body front back here)
  · obtain ⟨-, limit', grown, -⟩ := Pace.alone_of_leads leads
    have below : machine.limit < limit := limit' ▸ more
    have inside : machine.calls.length < limit :=
      Nat.lt_of_le_of_lt grown.short (Nat.max_lt.2 ⟨more, room⟩)
    have here : machine.Aside (openCalls 0 frames) (machine.allowing limit) :=
      aside_of_leads leads (Nat.le_of_lt below)
    exact matching_of_ends ((endsIn_runCode start code).later leads) fits
      (ends_called place name body front back here (Nat.add_lt_add_right below _) inside)

/-- The word `setup` defines `twin`. Called from a place in a text, it does what its body does: only
the place of the definition is another. -/
theorem calling_is_running_the_body_of_setup :
    let dup : Word := ⟨"dup", .primitive (.operation .dup)⟩
    let body : Code := [.made (.quote [.made (.word dup)]),
      .made (.literal "\"twin\"" (.string "twin")), .made (.word ⟨"define", .primitive .define⟩)]
    let setup : Word := ⟨"setup", .secondary body⟩
    let start : Machine := new 2 .empty
    let site := Location.start "text"
    let place (machine : Machine) := (machine.dictionary.get? "twin").bind (·.location)
    (∃ last, call site setup start = .ok () last ∧ place last = some site ∧
      Matching (.ok () last) (runCode body start)) ∧
    (∃ result, EndsIn ⟨start, [.code ([] ++ (body ++ []))], none⟩ result ∧
      Matching (runCode [⟨site, .word setup⟩] start) result) ∧
    ∃ last result, runCode body start = .ok () last ∧ place last = some .unspecified ∧
      EndsIn ⟨start.allowing 3, [.code ([] ++ [⟨site, .word setup⟩])], none⟩ result ∧
      Matching (.ok () last) result := by
  intro dup body setup start site place
  obtain ⟨calls, inlines, names⟩ := calling_is_running_the_body start "setup" body
  have fits {result : EStateM.Result Fault Machine Unit} {last : Machine}
      (ran : result = .ok () last) : ¬ Overruns result := by
    rintro ⟨_, _, failed, -⟩
    cases ran.symm.trans failed
  obtain ⟨last, called, there⟩ : ∃ last, call site setup start = .ok () last ∧
      place last = some site :=
    ⟨_, (endsIn_call start site setup).unique (endsIn_of_leads ⟨6, rfl⟩), rfl⟩
  obtain ⟨last₁, ran₁⟩ : ∃ last, runCode [⟨site, .word setup⟩] start = .ok () last :=
    ⟨_, (endsIn_runCode start _).unique (endsIn_of_leads ⟨8, rfl⟩)⟩
  obtain ⟨last₂, ran₂, there₂⟩ : ∃ last, runCode body start = .ok () last ∧
      place last = some .unspecified :=
    ⟨_, (endsIn_runCode start body).unique (endsIn_of_leads ⟨5, rfl⟩), rfl⟩
  refine ⟨⟨last, called, there, called ▸ calls site (fits called)⟩, ?_, ?_⟩
  · exact inlines [⟨site, .word setup⟩] start site [] [] [] (fits ran₁) (.refl _)
  · obtain ⟨result, ends, same⟩ :=
      names body start site [] [] [] 3 (fits ran₂) (.refl _) (by decide) (by decide)
    exact ⟨last₂, result, ran₂, there₂, ends, ran₂ ▸ same⟩

end Machine

end LiveStack
