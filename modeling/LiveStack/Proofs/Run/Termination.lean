import LiveStack.Proofs.Run.Execution

/-!
# Every run ends

The evaluator of `LiveStack.Run` is total because the calls that are left are handed down as a
number. `Execution` has no such number. Here the two are joined: an execution comes, after finitely
many steps, to exactly what the evaluator gives for the same code, word or source text, whether
that is a result or a fault. So every run ends, whatever code it builds on the way.

The join goes by the calls that are left, then along the code, then along the items of a list that
a quotation is applied to. What makes the outer induction fit is that a run leaves the call list as
it found it, so the calls left at an instruction are the calls left at the beginning.
-/

namespace LiveStack

open Run

namespace Execution

/-! ## Coming from one execution to another -/

theorem after_succ (execution : Execution) (count : Nat) :
    execution.after (count + 1) = execution.step.after count := rfl

theorem after_add (execution : Execution) (first second : Nat) :
    execution.after (first + second) = (execution.after first).after second := by
  rw [after, Nat.add_comm, Function.iterate_add_apply]
  rfl

theorem Leads.refl (execution : Execution) : Leads execution execution := ⟨0, rfl⟩

theorem Leads.trans {first second third : Execution} (front : Leads first second)
    (back : Leads second third) : Leads first third := by
  obtain ⟨m, rfl⟩ := front
  obtain ⟨n, rfl⟩ := back
  exact ⟨m + n, after_add first m n⟩

/-- Take one step, and then more. -/
theorem Leads.head {first last : Execution} (rest : Leads first.step last) : Leads first last := by
  obtain ⟨n, rfl⟩ := rest
  exact ⟨n + 1, after_succ first n⟩

/-- Nothing happens after the end. -/
theorem step_of_isOver {execution : Execution} (idle : execution.isOver) :
    execution.step = execution := by
  obtain ⟨machine, frames, fault⟩ := execution
  cases idle
  rfl

theorem after_of_isOver {execution : Execution} (idle : execution.isOver) (count : Nat) :
    execution.after count = execution := by
  induction count with
  | zero => rfl
  | succ count ih => rw [after_succ, step_of_isOver idle, ih]

/-! ## Results and the call list -/

/-- The machine that a run leaves. -/
def final {α : Type} : EStateM.Result Fault Machine α → Machine
  | .ok _ machine => machine
  | .error _ machine => machine

/-- The machine that an attempt leaves. -/
theorem attempt_snd {α : Type} (run : Run α) (machine : Machine) :
    (run.attempt machine).2 = final (run machine) := by
  rw [Run.attempt]
  cases run machine <;> rfl

/-- The call list and its limit are as they were. -/
def Balanced {α : Type} (machine : Machine) (result : EStateM.Result Fault Machine α) : Prop :=
  (final result).calls = machine.calls ∧ (final result).limit = machine.limit

/-- The result with the innermost call taken off. -/
def closed : EStateM.Result Fault Machine Unit → EStateM.Result Fault Machine Unit
  | .ok result machine => .ok result { machine with calls := machine.calls.tail }
  | .error fault machine => .error fault { machine with calls := machine.calls.tail }

/-- An open call that has nothing left to do is taken off. -/
theorem leads_closed (result : EStateM.Result Fault Machine Unit) (frames : List Frame) :
    Leads (settle result (.call .nothing :: frames)) (settle (closed result) frames) := by
  cases result with
  | ok value machine => exact .head (.refl _)
  | error fault machine => exact .head (.refl _)

/-- A fault takes the innermost call off, whatever that had left to do. -/
theorem leads_unwound (fault : Fault) (machine : Machine) (pending : Pending)
    (frames : List Frame) :
    Leads ⟨machine, .call pending :: frames, some fault⟩
      (settle (closed (.error fault machine)) frames) :=
  .head (.refl _)

theorem room_eq_of_balanced {α : Type} {machine : Machine}
    {result : EStateM.Result Fault Machine α} (balanced : Balanced machine result) :
    (final result).room = machine.room := by
  rw [Machine.room, Machine.room, balanced.1, balanced.2]

/-! ## Single computations -/

theorem bind_apply {α β : Type} (run : Run α) (next : α → Run β) (machine : Machine) :
    (run >>= next) machine = match run machine with
      | .ok value machine => next value machine
      | .error fault machine => .error fault machine := by
  cases ran : run machine <;> simp [bind, EStateM.bind, ran]

theorem get_apply (machine : Machine) : (get : Run Machine) machine = .ok machine machine := rfl

theorem pushAll_apply (values : List Value) (machine : Machine) :
    pushAll values machine = .ok () { machine with stack := values.reverse ++ machine.stack } := by
  induction values generalizing machine with
  | nil => rfl
  | cons value values ih =>
      show pushAll values { machine with stack := value :: machine.stack } = _
      rw [ih]
      simp

theorem ofExcept_ok {α : Type} (value : α) (machine : Machine) :
    ofExcept (.ok value) machine = .ok value machine := rfl

theorem ofExcept_error {α : Type} (cause : Cause) (machine : Machine) :
    (ofExcept (.error cause) : Run α) machine = .error (machine.fault cause) machine := rfl

theorem pop_apply (machine : Machine) :
    pop machine = match top machine with
      | .ok (value, stack) => .ok value { machine with stack }
      | .error cause => .error (machine.fault cause) machine := by
  obtain ⟨host, limit, stack, location, calls, dictionary, handlers, diagnostics⟩ := machine
  cases stack with
  | nil => rfl
  | cons value stack => rfl

theorem takeArguments_apply (name : String) (count : Nat) (machine : Machine) :
    takeArguments name count machine = match arguments name count machine with
      | .ok (values, stack) => .ok values { machine with stack }
      | .error cause => .error (machine.fault cause) machine := by
  rw [arguments, takeArguments, bind_apply, get_apply]
  simp only
  cases split? count [] machine.stack with
  | some split => rfl
  | none => rfl

/-! ## Loops along a list -/

/-- Go along a list as a built-in word does, and push what comes of it. -/
def loopItems (call : Caller) (quotation : Code) : Loop → Code → Run Unit
  | loop, [] => push loop.outcome
  | loop, item :: rest => do
      let value ← itemValue item
      let result ← applyTo call quotation (loop.arguments value)
      loopItems call quotation (loop.gather item result) rest

theorem mapItems_eq (call : Caller) (quotation items : Code) :
    (do push (.list (← mapItems call quotation items))) =
      loopItems call quotation (.map []) items := by
  suffices general : ∀ results : Code,
      (do
        let results ← items.foldlM (fun (results : Code) item => do
          let result ← applyTo call quotation [← itemValue item]
          return .made (.ofValue result) :: results) results
        push (.list results.reverse)) = loopItems call quotation (.map results) items by
    simpa [mapItems] using general []
  induction items with
  | nil => intro results; simp [loopItems, Loop.outcome]
  | cons item rest ih =>
      intro results
      simp [loopItems, Loop.gather, Loop.arguments, ← ih]

theorem filterItems_eq (call : Caller) (quotation items : Code) :
    (do push (.list (← filterItems call quotation items))) =
      loopItems call quotation (.filter []) items := by
  suffices general : ∀ kept : Code,
      (do
        let kept ← items.foldlM (fun (kept : Code) item => do
          let result ← applyTo call quotation [← itemValue item]
          return if result.truth then item :: kept else kept) kept
        push (.list kept.reverse)) = loopItems call quotation (.filter kept) items by
    simpa [filterItems] using general []
  induction items with
  | nil => intro kept; simp [loopItems, Loop.outcome]
  | cons item rest ih =>
      intro kept
      simp [loopItems, Loop.gather, Loop.arguments, ← ih]

theorem foldItems_eq (call : Caller) (quotation items : Code) (initial : Value) :
    (do push (← foldItems call quotation initial items)) =
      loopItems call quotation (.fold initial) items := by
  unfold foldItems
  induction items generalizing initial with
  | nil => simp [loopItems, Loop.outcome]
  | cons item rest ih => simp [loopItems, Loop.gather, Loop.arguments, ← ih]

/-! ## The join -/

/-- With so many calls left, executions that begin so come to what `run` gives, and the call list
is in the end as it was. -/
def Simulates (depth : Nat) (start : Machine → List Frame → Execution) (run : Run Unit) : Prop :=
  ∀ machine frames, machine.room = depth →
    Leads (start machine frames) (settle (run machine) frames) ∧ Balanced machine (run machine)

/-- Code is executed as it is run, if every word is. -/
theorem simulates_runCode {depth : Nat} {call : Caller}
    (words : ∀ site word, Simulates depth (enter site word) (call site word)) (code : Code) :
    Simulates depth (fun machine frames => ⟨machine, .code code :: frames, none⟩)
      (runCode call code) := by
  -- A call that comes back leaves as much room as there was, so the rest of the code has it too.
  induction code with
  | nil => exact fun machine frames _ => ⟨.head (.refl _), rfl, rfl⟩
  | cons instruction rest ih =>
      intro machine frames room
      obtain ⟨location, element⟩ := instruction
      let visited := { machine with location := location.or machine.location }
      cases element with
      | literal text value =>
          obtain ⟨leads, balanced⟩ :=
            ih { visited with stack := value :: visited.stack } frames room
          exact ⟨.head leads, balanced⟩
      | quote code =>
          obtain ⟨leads, balanced⟩ :=
            ih { visited with stack := .list code :: visited.stack } frames room
          exact ⟨.head leads, balanced⟩
      | unknown text =>
          obtain ⟨leads, balanced⟩ := ih visited frames room
          exact ⟨.head leads, balanced⟩
      | word word =>
          let site := (location.or visited.location).getD .unspecified
          obtain ⟨called, kept⟩ := words site word visited (.code rest :: frames) room
          have run : runCode call (⟨location, .word word⟩ :: rest) machine =
              (call site word >>= fun _ => runCode call rest) visited := rfl
          rw [run, bind_apply]
          cases result : call site word visited with
          | error fault stopped =>
              rw [result] at called kept
              exact ⟨.head (called.trans (.head (.refl _))), kept⟩
          | ok value returned =>
              rw [result] at called kept
              have left : returned.room = depth := (room_eq_of_balanced kept).trans room
              obtain ⟨leads, balanced⟩ := ih returned frames left
              exact ⟨.head (called.trans leads), balanced.1.trans kept.1, balanced.2.trans kept.2⟩

/-- The machine in which a loop runs its quotation on a value. -/
def fed (loop : Loop) (value : Value) (machine : Machine) : Machine :=
  { machine with stack := (loop.arguments value).reverse ++ machine.stack }

theorem loopItems_of_error (call : Caller) (quotation : Code) (loop : Loop) {item : Instruction}
    (rest : Code) {cause : Cause} (machine : Machine) (value : item.value = .error cause) :
    loopItems call quotation loop (item :: rest) machine =
      .error (machine.fault cause) machine := by
  rw [loopItems, bind_apply, itemValue, value, ofExcept_error]

theorem loopItems_of_ok (call : Caller) (quotation : Code) (loop : Loop) {item : Instruction}
    (rest : Code) {value : Value} (machine : Machine) (read : item.value = .ok value) :
    loopItems call quotation loop (item :: rest) machine =
      (do
        runCode call quotation
        let result ← pop
        loopItems call quotation (loop.gather item result) rest) (fed loop value machine) := by
  rw [loopItems, bind_apply, itemValue, read, ofExcept_ok]
  simp only [applyTo, bind_assoc]
  rw [bind_apply, pushAll_apply]
  rfl

/-- As `Simulates`, for the work inside an open call: in the end the call is taken off. -/
def Closes (depth : Nat) (start : Machine → List Frame → Execution) (run : Run Unit) : Prop :=
  ∀ machine frames, machine.room = depth →
    Leads (start machine frames) (settle (closed (run machine)) frames) ∧
      Balanced machine (run machine)

/-- A loop is executed as it is run, if its quotation is. -/
theorem closes_continueLoop {depth : Nat} {call : Caller} {quotation : Code}
    (codes : Simulates depth (fun machine frames => ⟨machine, .code quotation :: frames, none⟩)
      (runCode call quotation)) (items : Code) (loop : Loop) :
    Closes depth (continueLoop loop quotation items) (loopItems call quotation loop items) := by
  intro machine frames room
  -- The induction is on the items that are left, with the machine and the results so far general.
  induction items generalizing loop machine with
  | nil => exact ⟨.head (.refl _), rfl, rfl⟩
  | cons item rest ih =>
      cases read : item.value with
      | error cause =>
          rw [loopItems_of_error call quotation loop rest machine read, continueLoop, read]
          exact ⟨leads_unwound _ _ _ _, rfl, rfl⟩
      | ok value =>
          rw [loopItems_of_ok call quotation loop rest machine read, continueLoop, read, bind_apply]
          obtain ⟨ran, kept⟩ := codes (fed loop value machine)
            (.call (.loop loop quotation item rest) :: frames) room
          cases result : runCode call quotation (fed loop value machine) with
          | error fault stopped =>
              rw [result] at ran kept
              exact ⟨ran.trans (leads_unwound _ _ _ _), kept⟩
          | ok _ returned =>
              rw [result] at ran kept
              have left : returned.room = depth := (room_eq_of_balanced kept).trans room
              simp only [bind_apply, pop_apply]
              cases popped : top returned with
              | error cause =>
                  refine ⟨ran.trans (.head ?_), kept⟩
                  rw [settle, step, popped]
                  exact leads_unwound _ _ _ _
              | ok split =>
                  obtain ⟨leads, balanced⟩ :=
                    ih (loop.gather item split.1) { returned with stack := split.2 } left
                  refine ⟨ran.trans (.head ?_), balanced.1.trans kept.1, balanced.2.trans kept.2⟩
                  rw [settle, step, popped]
                  exact leads

/-! ## Built-in words -/

section
variable {depth : Nat} {call : Caller}

/-- Work that begins with a check. -/
theorem closes_check {α : Type} (checked : Except Cause α)
    {start : α → Machine → List Frame → Execution} {run : α → Run Unit}
    (closes : ∀ value, Closes depth (start value) (run value)) :
    Closes depth (fun machine frames => check checked machine (.call .nothing :: frames)
      fun value => start value machine frames) (ofExcept checked >>= run) := by
  intro machine frames room
  rw [bind_apply]
  cases checked with
  | error cause => exact ⟨leads_unwound _ _ _ _, rfl, rfl⟩
  | ok value => exact closes value machine frames room

/-- Values that are given, or refused, at once. -/
theorem closes_give (results : Except Cause (List Value)) :
    Closes depth (perform (.give results)) (ofExcept results >>= pushAll) :=
  closes_check results fun values machine frames _ => by
    rw [pushAll_apply]
    exact ⟨.head (.refl _), rfl, rfl⟩

theorem closes_define (quotation name : Value) :
    Closes depth (perform (.define quotation name))
      (runPrimitive call .define [quotation, name]) := by
  refine closes_check _ fun body => closes_check _ fun text machine frames _ => ?_
  cases nameProblem? text with
  | some reason => exact ⟨leads_unwound _ _ _ _, rfl, rfl⟩
  | none => exact ⟨.head (.refl _), rfl, rfl⟩

variable (codes : ∀ code, Simulates depth
  (fun machine frames => ⟨machine, .code code :: frames, none⟩) (runCode call code))
include codes

/-- Code that is all the work of a call. -/
theorem closes_runCode (code : Code) :
    Closes depth (fun machine frames => ⟨machine, .code code :: .call .nothing :: frames, none⟩)
      (runCode call code) := by
  intro machine frames room
  obtain ⟨leads, balanced⟩ := codes code machine (.call .nothing :: frames) room
  exact ⟨leads.trans (leads_closed _ _), balanced⟩

theorem closes_read (name source : String) :
    Closes depth (fun machine frames => read name source machine (.call .nothing :: frames))
      (runSource call name source) :=
  fun machine frames room =>
    closes_runCode codes (Code.ofSource machine.bind name source).1
      { machine with diagnostics :=
          machine.diagnostics ++ (Code.ofSource machine.bind name source).2 } frames room

theorem closes_dip (x quotation : Value) :
    Closes depth (perform (.dip x quotation)) (runPrimitive call .dip [x, quotation]) := by
  refine closes_check _ fun code machine frames room => ?_
  obtain ⟨leads, balanced⟩ := codes code machine (.call (.restore x) :: frames) room
  rw [bind_apply]
  cases result : runCode call code machine with
  | error fault stopped =>
      rw [result] at leads balanced
      exact ⟨leads.trans (leads_unwound _ _ _ _), balanced⟩
  | ok _ returned =>
      rw [result] at leads balanced
      exact ⟨leads.trans (.head (.head (.refl _))), balanced⟩

theorem closes_loop (loop : Loop) (list quotation : Value) :
    Closes depth (perform (.loop loop list quotation))
      (ofExcept list.asList >>= fun items => ofExcept quotation.asList >>= fun code =>
        loopItems call code loop items) :=
  closes_check _ fun items => closes_check _ fun code =>
    closes_continueLoop (codes code) items loop

theorem closes_use (value : Value) :
    Closes depth (perform (.use value)) (runPrimitive call .use [value]) := by
  intro machine frames room
  let asked := { machine with
    host := { machine.host with requests := machine.host.requests.push value.render } }
  simp only [runPrimitive, bind_apply, get_apply, perform]
  cases machine.host.fetch value.render with
  | some source => exact closes_read codes value.render source asked frames room
  | none => exact ⟨leads_unwound _ _ _ _, rfl, rfl⟩

/-- A built-in word is executed as it is run, if code is. -/
theorem closes_perform (primitive : Primitive) (values : List Value) :
    Closes depth (perform (primitive.work values)) (runPrimitive call primitive values) := by
  have refused (cause : Cause) : Closes depth (perform (.give (.error cause))) (fail cause) :=
    closes_give (.error cause)
  cases primitive with
  | operation op => exact closes_give (op.apply values)
  | dip =>
      match values with
      | [x, quotation] => exact closes_dip codes x quotation
      | [] | [_] | _ :: _ :: _ :: _ => exact refused _
  | map =>
      match values with
      | [list, quotation] =>
          simp only [runPrimitive, mapItems_eq]
          exact closes_loop codes (.map []) list quotation
      | [] | [_] | _ :: _ :: _ :: _ => exact refused _
  | filter =>
      match values with
      | [list, quotation] =>
          simp only [runPrimitive, filterItems_eq]
          exact closes_loop codes (.filter []) list quotation
      | [] | [_] | _ :: _ :: _ :: _ => exact refused _
  | fold =>
      match values with
      | [list, initial, quotation] =>
          simp only [runPrimitive, foldItems_eq]
          exact closes_loop codes (.fold initial) list quotation
      | [] | [_] | [_, _] | _ :: _ :: _ :: _ :: _ => exact refused _
  | words =>
      match values with
      | [] => exact fun machine frames _ => ⟨.head (.refl _), rfl, rfl⟩
      | _ :: _ => exact refused _
  | define =>
      match values with
      | [quotation, name] => exact closes_define quotation name
      | [] | [_] | _ :: _ :: _ :: _ => exact refused _
  | eval =>
      match values with
      | [.string source] => exact closes_read codes _ source
      | [.list code] => exact closes_runCode codes code
      | [.int _] | [.float _] | [.bool _] => exact refused _
      | [] => exact refused _
      | first :: _ :: _ => cases first <;> exact refused _
  | alert =>
      match values with
      | [value] => exact fun machine frames _ => ⟨.head (.refl _), rfl, rfl⟩
      | [] | _ :: _ :: _ => exact refused _
  | use =>
      match values with
      | [value] => exact closes_use codes value
      | [] | _ :: _ :: _ => exact refused _

/-- The body of a word is executed as it is run, if code is. -/
theorem closes_begin (word : Word) : Closes depth (begin word) (runHandler call word) := by
  intro machine frames room
  rw [runHandler, begin]
  cases word.handler with
  | secondary body => exact closes_runCode codes body machine frames room
  | primitive primitive =>
      simp only [bind_apply, takeArguments_apply]
      cases arguments word.name primitive.arity machine with
      | error cause => exact ⟨leads_unwound _ _ _ _, rfl, rfl⟩
      | ok split =>
          exact closes_perform codes primitive split.1 { machine with stack := split.2 } frames room

end

/-! ## Words -/

/-- Words are executed as they are called, however many calls are left. -/
theorem simulates_callWord (depth : Nat) (site : Location) (word : Word) :
    Simulates depth (enter site word) (callWord depth site word) := by
  -- The induction is on the calls that are left: with none, both refuse the call.
  induction depth generalizing site word with
  | zero =>
      intro machine frames room
      have full : machine.limit ≤ machine.calls.length := by
        rw [Machine.room] at room
        omega
      rw [enter, if_pos full]
      exact ⟨.refl _, rfl, rfl⟩
  | succ depth ih =>
      intro machine frames room
      have open' : ¬ machine.limit ≤ machine.calls.length := by
        rw [Machine.room] at room
        omega
      let called := { machine with
        location := some site, calls := (⟨word.name, site⟩ : Call) :: machine.calls }
      have left : called.room = depth := by
        show machine.limit - (machine.calls.length + 1) = depth
        rw [Machine.room] at room
        omega
      have run : callWord (depth + 1) site word machine =
          closed (runHandler (callWord depth) word called) := by
        simp only [callWord, roomFor_eq]
        rfl
      obtain ⟨leads, calls, limit⟩ :=
        closes_begin (simulates_runCode ih) word called frames left
      rw [run, enter, if_neg open']
      refine ⟨leads, ?_⟩
      cases result : runHandler (callWord depth) word called with
      | ok value returned =>
          rw [result] at calls limit
          exact ⟨congrArg List.tail calls, limit⟩
      | error fault stopped =>
          rw [result] at calls limit
          exact ⟨congrArg List.tail calls, limit⟩

/-! ## The end of every run -/

/-- An ended execution shows the result it ended with. -/
theorem settle_injective {first second : EStateM.Result Fault Machine Unit} {frames : List Frame}
    (same : settle first frames = settle second frames) : first = second := by
  cases first <;> cases second <;> simp_all [settle]

/-- From some step on, nothing is left to do, and what there is is this result. -/
def EndsIn (execution : Execution) (result : EStateM.Result Fault Machine Unit) : Prop :=
  ∃ count, ∀ later, count ≤ later → execution.after later = settle result []

theorem endsIn_of_leads {execution : Execution} {result : EStateM.Result Fault Machine Unit}
    (leads : Leads execution (settle result [])) : EndsIn execution result := by
  obtain ⟨count, ended⟩ := leads
  refine ⟨count, fun later late => ?_⟩
  obtain ⟨more, rfl⟩ := Nat.exists_eq_add_of_le late
  have idle : (settle result []).isOver := by cases result <;> rfl
  rw [after_add, ended, after_of_isOver idle]

/-- An execution ends in one result only. -/
theorem EndsIn.unique {execution : Execution}
    {first second : EStateM.Result Fault Machine Unit} (ends : EndsIn execution first)
    (ends' : EndsIn execution second) : first = second := by
  obtain ⟨count, ended⟩ := ends
  obtain ⟨count', ended'⟩ := ends'
  exact settle_injective ((ended _ (Nat.le_max_left count count')).symm.trans
    (ended' _ (Nat.le_max_right count count')))

/-- Once nothing is left to do, there is what the execution ends in. -/
theorem EndsIn.of_isOver {execution : Execution} {result : EStateM.Result Fault Machine Unit}
    (ends : EndsIn execution result) {count : Nat} (idle : (execution.after count).isOver) :
    execution.after count = settle result [] := by
  obtain ⟨enough, ended⟩ := ends
  have late := ended (count + enough) (Nat.le_add_left enough count)
  rwa [after_add, after_of_isOver idle] at late

/-- What an execution comes to on its way ends in the same. -/
theorem EndsIn.later {first last : Execution} {result : EStateM.Result Fault Machine Unit}
    (ends : EndsIn first result) (leads : Leads first last) : EndsIn last result := by
  obtain ⟨count, rfl⟩ := leads
  obtain ⟨enough, ended⟩ := ends
  refine ⟨enough, fun later late => ?_⟩
  rw [← after_add]
  exact ended _ (Nat.le_trans late (Nat.le_add_left later count))

/-- An execution ends in what it comes to on its way. -/
theorem EndsIn.earlier {first last : Execution} {result : EStateM.Result Fault Machine Unit}
    (ends : EndsIn last result) (leads : Leads first last) : EndsIn first result := by
  obtain ⟨count, ended⟩ := ends
  exact endsIn_of_leads (leads.trans ⟨count, ended count (Nat.le_refl count)⟩)

/-! ## Two runs in step -/

section
variable {Related : Execution → Execution → Prop}
  (keeps : ∀ first second, Related first second → Related first.step second.step)
include keeps

theorem related_after {first second : Execution} (start : Related first second) (count : Nat) :
    Related (first.after count) (second.after count) := by
  induction count generalizing first second with
  | zero => exact start
  | succ count ih => exact ih (keeps first second start)

/-- What every step of two executions keeps holds of the results that they end in. -/
theorem related_settle {first second : Execution} (start : Related first second)
    {result result' : EStateM.Result Fault Machine Unit} (ends : EndsIn first result)
    (ends' : EndsIn second result') : Related (settle result []) (settle result' []) := by
  obtain ⟨count, ended⟩ := ends
  obtain ⟨count', ended'⟩ := ends'
  -- The two need not end after the same number of steps, but from the later end on both are over.
  have late := related_after keeps start (max count count')
  rwa [ended _ (Nat.le_max_left count count'), ended' _ (Nat.le_max_right count count')] at late

end

/-! ## Runs -/

theorem endsIn_runCode (machine : Machine) (code : Code) :
    EndsIn (ofCode machine code) (Machine.runCode code machine) :=
  endsIn_of_leads
    (simulates_runCode (simulates_callWord machine.room) code machine [] rfl).1

theorem endsIn_runSource (machine : Machine) (name source : String) :
    EndsIn (ofSource machine name source) (Machine.runSource name source machine) :=
  endsIn_of_leads (simulates_runCode (simulates_callWord machine.room)
    (Code.ofSource machine.bind name source).1
    { machine with diagnostics :=
        machine.diagnostics ++ (Code.ofSource machine.bind name source).2 } [] rfl).1

theorem balanced_runCode (machine : Machine) (code : Code) :
    Balanced machine (Machine.runCode code machine) :=
  (simulates_runCode (simulates_callWord machine.room) code machine [] rfl).2

/-- The code in front of any frames is run, and leaves them. -/
theorem leads_runCode (machine : Machine) (code : Code) (frames : List Frame) :
    Leads ⟨machine, .code code :: frames, none⟩ (settle (Machine.runCode code machine) frames) :=
  (simulates_runCode (simulates_callWord machine.room) code machine frames rfl).1

theorem balanced_runSource (machine : Machine) (name source : String) :
    Balanced machine (Machine.runSource name source machine) :=
  (simulates_runCode (simulates_callWord machine.room)
    (Code.ofSource machine.bind name source).1
    { machine with diagnostics :=
        machine.diagnostics ++ (Code.ofSource machine.bind name source).2 } [] rfl).2

theorem endsIn_call (machine : Machine) (site : Location) (word : Word) :
    EndsIn (ofWord machine site word) (Machine.call site word machine) :=
  endsIn_of_leads (simulates_callWord machine.room site word machine [] rfl).1

/-- Every execution ends, whatever it has left to do. -/
theorem exists_endsIn (execution : Execution) : ∃ result, EndsIn execution result := by
  obtain ⟨machine, frames, fault⟩ := execution
  induction frames generalizing machine fault with
  | nil =>
      cases fault with
      | none => exact ⟨.ok () machine, endsIn_of_leads (.refl _)⟩
      | some fault => exact ⟨.error fault machine, endsIn_of_leads (.refl _)⟩
  | cons frame frames ih =>
      -- It is enough that the innermost frame comes to an end.
      suffices leads : ∃ machine' fault',
          Leads ⟨machine, frame :: frames, fault⟩ ⟨machine', frames, fault'⟩ by
        obtain ⟨machine', fault', leads⟩ := leads
        obtain ⟨result, ends⟩ := ih machine' fault'
        exact ⟨result, ends.earlier leads⟩
      have settled {first : Execution} {result : EStateM.Result Fault Machine Unit}
          (leads : Leads first (settle result frames)) :
          ∃ machine' fault', Leads first ⟨machine', frames, fault'⟩ := by
        cases result <;> exact ⟨_, _, leads⟩
      match frame, fault with
      | .code _, some _ => exact ⟨_, _, .head (.refl _)⟩
      | .call _, some _ => exact ⟨_, _, .head (.refl _)⟩
      | .code code, none => exact settled (leads_runCode machine code frames)
      | .call .nothing, none => exact ⟨_, _, .head (.refl _)⟩
      | .call (.restore _), none => exact ⟨_, _, .head (.head (.refl _))⟩
      | .call (.loop loop quotation item rest), none =>
          cases popped : top machine with
          | error cause =>
              refine ⟨{ machine with calls := machine.calls.tail }, some (machine.fault cause),
                .head ?_⟩
              rw [step, popped]
              exact .head (.refl _)
          | ok split =>
              have taken : step ⟨machine, .call (.loop loop quotation item rest) :: frames, none⟩ =
                  continueLoop (loop.gather item split.1) quotation rest
                    { machine with stack := split.2 } frames := by
                rw [step, popped]
                rfl
              have codes := simulates_runCode (simulates_callWord machine.room) quotation
              have closes := (closes_continueLoop codes rest (loop.gather item split.1)
                { machine with stack := split.2 } frames rfl).1
              rw [← taken] at closes
              exact settled (.head closes)

end Execution

end LiveStack
