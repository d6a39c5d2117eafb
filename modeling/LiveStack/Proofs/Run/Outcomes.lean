import LiveStack.Proofs.Run.Shuffling

/-!
# What code comes to

Above some values, code may leave others in their place and change nothing else, or it may stop for
a cause. Where this depends on the values alone, it is an outcome: the same on every machine that
has room for the calls, whatever is defined there, and on those with less room as well, unless the
run is stopped for want of it. So an outcome can be found item by item: each finds the values that
the ones in front of it have left, the last may stop, and a fold goes through its list in the same
way until the first value that stops it.
-/

namespace LiveStack

open Execution Run

namespace Machine

/-- The run has left these values on the machine's stack and changed nothing else but the place, or
it has stopped for this cause. -/
inductive ComesTo (machine : Machine) :
    Except Cause (List Value) → EStateM.Result Fault Machine Unit → Prop
  | ok (values : List Value) (location : Option Location) :
      ComesTo machine (.ok values) (.ok () { machine.topped values with location })
  | error (fault : Fault) (last : Machine) : ComesTo machine (.error fault.cause) (.error fault last)

/-- There is room for so many calls, or the run has not been stopped for want of room. -/
def Suffices (depth : Nat) (machine : Machine) (result : EStateM.Result Fault Machine Unit) : Prop :=
  machine.calls.length + depth ≤ machine.limit ∨ ¬ Overruns result

variable {machine : Machine} {outcome : Except Cause (List Value)}
  {result : EStateM.Result Fault Machine Unit}

namespace ComesTo

/-- The place makes no difference to what a machine has below the values. -/
theorem elsewhere {location : Option Location}
    (comes : ComesTo { machine with location } outcome result) : machine.ComesTo outcome result := by
  cases comes with
  | ok values location => exact .ok values location
  | error fault last => exact .error fault last

theorem exists_ok {values : List Value} (comes : machine.ComesTo (.ok values) result) :
    ∃ location, result = .ok () { machine.topped values with location } := by
  cases comes with
  | ok values location => exact ⟨location, rfl⟩

theorem exists_error {cause : Cause} (comes : machine.ComesTo (.error cause) result) :
    ∃ fault last, result = .error fault last ∧ fault.cause = cause := by
  cases comes with
  | error fault last => exact ⟨fault, last, rfl, rfl⟩

/-- What a run has come to inside a call is there when it comes back from it. -/
theorem closed {call : Call} {location : Option Location}
    (comes : ComesTo { machine with location, calls := call :: machine.calls } outcome result) :
    machine.ComesTo outcome (closed result) := by
  cases comes with
  | ok values location => exact .ok values location
  | error fault last => exact .error fault _

end ComesTo

end Machine

open Machine

/-- Above the values, the code comes to this outcome on the machine, with room for so many calls. -/
def Machine.Attains (depth : Nat) (machine : Machine) (before : List Value) (code : Code)
    (outcome : Except Cause (List Value)) : Prop :=
  machine.Suffices depth (Machine.runCode code (machine.topped before)) →
    machine.ComesTo outcome (Machine.runCode code (machine.topped before))

namespace Machine.Attains

variable {depth : Nat} {machine : Machine} {before between values : List Value} {code code' : Code}
  {outcome : Except Cause (List Value)}

/-- Code behind code that succeeds finds the values that this leaves. -/
theorem append (first : Attains depth machine before code (.ok between))
    (rest : ∀ location, Attains depth { machine with location } between code' outcome) :
    Attains depth machine before (code ++ code') outcome := by
  intro enough
  rw [runCode_append] at enough ⊢
  have front := first (enough.imp_right (mt overruns_bind))
  rw [bind_apply] at enough ⊢
  generalize Machine.runCode code (machine.topped before) = result at front enough ⊢
  cases front with
  | ok values location => exact (rest location enough).elsewhere

/-- Values that the code pushes first may be there from the beginning. -/
theorem pushing (attains : Attains depth machine (values.reverse ++ before) code outcome) :
    Attains depth machine before (pushing values ++ code) outcome := by
  intro enough
  have above : (machine.topped before).topped values.reverse =
      machine.topped (values.reverse ++ before) := by
    rw [topped, topped, topped, List.append_assoc]
  rw [runCode_pushing_append, above] at enough ⊢
  exact attains enough

/-- A word that is called comes to what it does inside the call. -/
theorem call {word : Word}
    (inside : ∀ site, let opened := machine.opened ⟨word.name, site⟩
      opened.Suffices depth (runHandler (callWord opened.room) word (opened.topped before)) →
      opened.ComesTo outcome (runHandler (callWord opened.room) word (opened.topped before)))
    (place : Option Location) :
    Attains (depth + 1) machine before [⟨place, .word word⟩] outcome := by
  intro enough
  rw [runCode_word] at enough ⊢
  generalize Machine.site _ = site at enough ⊢
  let visited : Machine := (Act.visit place).on (machine.topped before)
  by_cases full : machine.limit ≤ machine.calls.length
  · -- Without room for this call, there is neither room for all of them nor another end.
    have full' : visited.limit ≤ visited.calls.length := full
    rw [call_of_full full'] at enough
    rcases enough with room | fits
    · omega
    · exact absurd ⟨_, _, rfl, _, rfl⟩ fits
  · have room : visited.calls.length < visited.limit := Nat.not_le.1 full
    rw [call_of_room room] at enough ⊢
    refine (inside site (enough.imp (fun room => ?_) (mt overruns_closed))).closed
    show machine.calls.length + 1 + depth ≤ machine.limit
    omega

end Machine.Attains

/-- The code comes to this outcome above the values, with room for so many calls. -/
def Leaves (depth : Nat) (before : List Value) (code : Code)
    (outcome : Except Cause (List Value)) : Prop :=
  ∀ machine : Machine,
    machine.Suffices depth (Machine.runCode code (machine.topped before)) →
    machine.ComesTo outcome (Machine.runCode code (machine.topped before))

namespace Leaves

variable {depth : Nat} {before between after values : List Value} {code code' expansion : Code}
  {outcome : Except Cause (List Value)}

theorem attains (leaves : Leaves depth before code outcome) (machine : Machine) :
    machine.Attains depth before code outcome := leaves machine

theorem append (first : Leaves depth before code (.ok between))
    (rest : Leaves depth between code' outcome) : Leaves depth before (code ++ code') outcome :=
  fun machine => (first.attains machine).append fun location => rest { machine with location }

/-- Code that stops is not gone beyond. -/
theorem stops {cause : Cause} (first : Leaves depth before code (.error cause)) (code' : Code) :
    Leaves depth before (code ++ code') (.error cause) := by
  intro machine enough
  rw [runCode_append] at enough ⊢
  have front := first machine (enough.imp_right (mt overruns_bind))
  obtain ⟨fault, last, ran, rfl⟩ := front.exists_error
  rw [bind_apply, ran]
  exact .error fault last

theorem pushing (leaves : Leaves depth values.reverse code outcome) :
    Leaves depth [] (pushing values ++ code) outcome :=
  fun machine => Attains.pushing (by rw [List.append_nil]; exact leaves.attains machine)

/-- Code that stands for other code comes to what that does, below the values that it leaves. -/
theorem of_expands {extra : Nat} (expands : Expands depth before code expansion after)
    (leaves : Leaves extra [] expansion outcome)
    (other : ∀ cause, outcome = .error cause → ¬ cause.IsOverrun) :
    Leaves (depth + extra) before code (outcome.map (after ++ ·)) := by
  have fits (second : Machine) (room : second.calls.length + extra ≤ second.limit) :
      ¬ Overruns (Machine.runCode expansion second) := by
    rintro ⟨fault, last, failed, overrun⟩
    have comes : second.ComesTo outcome (Machine.runCode expansion second) :=
      leaves second (.inl room)
    rw [failed] at comes
    cases comes with
    | error => exact other fault.cause rfl overrun
  intro machine enough
  -- The expansion is run where it has just the room that it needs, or room enough in any case.
  obtain ⟨second, same, room, fits⟩ : ∃ second : Machine, machine.Matches second ∧
      second.calls.length + extra ≤ second.limit ∧
      Fits depth machine second (Machine.runCode code (machine.topped before))
        (Machine.runCode expansion second) := by
    rcases enough with room | enough
    · let second : Machine := { machine with limit := extra, calls := [] }
      have room' : second.calls.length + extra ≤ second.limit := Nat.le_of_eq (Nat.zero_add extra)
      refine ⟨second, ⟨rfl, rfl, rfl, rfl, rfl⟩, room', .back ⟨?_, ?_⟩ (fits second room')⟩
      · show extra + machine.calls.length + depth ≤ machine.limit + 0
        omega
      · omega
    · let second : Machine := { machine with limit := machine.limit + machine.calls.length + extra }
      refine ⟨second, ⟨rfl, rfl, rfl, rfl, rfl⟩, ?_, .forth ?_ enough⟩
      · show machine.calls.length + extra ≤ machine.limit + machine.calls.length + extra
        omega
      · show machine.limit + machine.calls.length ≤
          machine.limit + machine.calls.length + extra + machine.calls.length
        omega
  have matching := expands machine second same fits
  have comes : second.ComesTo outcome (Machine.runCode expansion second) :=
    leaves second (.inl room)
  generalize ran : Machine.runCode code (machine.topped before) = result at matching ⊢
  generalize Machine.runCode expansion second = result' at comes matching
  cases comes with
  | ok values location =>
      cases matching with
      | @ok last _ there =>
          have stack : (after ++ values) ++ machine.stack = last.stack := by
            rw [List.append_assoc, ← same.stack]
            exact there.stack
          have there' : last.Matches
              { machine.topped before with stack := (after ++ values) ++ machine.stack } :=
            ⟨same.host.symm.trans there.host, stack, same.dictionary.symm.trans there.dictionary,
              same.handlers.symm.trans there.handlers,
              same.diagnostics.symm.trans there.diagnostics⟩
          obtain ⟨location, rfl⟩ := exists_of_matches ran there'
          exact .ok (after ++ values) location
  | error fault last =>
      cases matching with
      | error causes there =>
          rw [Except.map, causes]
          exact .error _ _

/-- Code that stands for nothing comes to the values that it leaves. -/
theorem of_still (expands : Expands depth before code [] after) :
    Leaves depth before code (.ok after) := by
  have nothing : Leaves 0 [] [] (.ok []) := fun machine _ => .ok [] machine.location
  have leaves := of_expands expands nothing nofun
  rwa [Except.map, List.append_nil] at leaves

/-! ## Calls -/

theorem call {word : Word}
    (inside : ∀ machine : Machine,
      machine.Suffices depth (runHandler (callWord machine.room) word (machine.topped before)) →
      machine.ComesTo outcome (runHandler (callWord machine.room) word (machine.topped before)))
    (place : Option Location) : Leaves (depth + 1) before [⟨place, .word word⟩] outcome :=
  fun _ => Attains.call (fun _ => inside _) place

/-- A defined word comes to what its body does. -/
theorem secondary {body : Code} (leaves : Leaves depth before body outcome)
    (place : Option Location) (name : String) :
    Leaves (depth + 1) before [⟨place, .word ⟨name, .secondary body⟩⟩] outcome := by
  refine call (fun machine enough => ?_) place
  exact leaves machine enough

/-- An operation comes to what it gives for its arguments. -/
theorem operation {op : Operation} {arguments : List Value}
    (arity : (Primitive.operation op).arity = arguments.length) (place : Option Location)
    (name : String) :
    Leaves (depth + 1) (arguments.reverse ++ values)
      [⟨place, .word ⟨name, .primitive (.operation op)⟩⟩]
      ((op.apply arguments).map (·.reverse ++ values)) := by
  refine call (fun machine _ => ?_) place
  have pieces : runPrimitive (callWord machine.room) (.operation op) arguments =
      (ofExcept (op.apply arguments) >>= pushAll) := rfl
  rw [runHandler_topped arity, pieces, bind_apply]
  cases op.apply arguments with
  | error cause =>
      rw [ofExcept_error]
      exact .error ((machine.topped values).fault cause) _
  | ok results =>
      rw [ofExcept_ok]
      simp only
      rw [pushAll_apply, topped, ← List.append_assoc]
      exact .ok (results.reverse ++ values) machine.location

/-! ## Folds -/

/-- The values of a list combined from first to last, until one of them stops. -/
def combined (combine : Value → Value → Except Cause Value) : Value → Code → Except Cause Value
  | result, [] => .ok result
  | result, item :: rest => do combined combine (← combine (← item.value) result) rest

variable {combine : Value → Value → Except Cause Value} {quotation : Code}

/-- A loop comes to the combination of the values, where the quotation combines two of them. -/
theorem comesTo_loopItems
    (ran : ∀ item result, Leaves depth [result, item] quotation ((combine item result).map ([·])))
    (items : Code) (initial : Value) (machine : Machine)
    (enough : machine.Suffices depth
      (loopItems (callWord machine.room) quotation (.fold initial) items machine)) :
    machine.ComesTo ((combined combine initial items).map ([·]))
      (loopItems (callWord machine.room) quotation (.fold initial) items machine) := by
  induction items generalizing initial machine with
  | nil => exact .ok [initial] machine.location
  | cons item rest ih =>
      rw [combined]
      cases read : item.value with
      | error cause =>
          rw [loopItems_of_error _ _ _ _ _ read]
          exact .error (machine.fault cause) machine
      | ok value =>
          have applied := ran value initial machine
          have whole : LiveStack.runCode (callWord machine.room) quotation
              (fed (.fold initial) value machine) =
                Machine.runCode quotation (machine.topped [initial, value]) := rfl
          rw [loopItems_of_ok _ _ _ _ _ read] at enough ⊢
          have applied' := applied (enough.imp_right (mt overruns_bind))
          rw [bind_apply, whole] at enough ⊢
          generalize Machine.runCode quotation (machine.topped [initial, value]) = result
            at applied' enough ⊢
          show machine.ComesTo
            ((combine value initial >>= fun next => combined combine next rest).map ([·])) _
          generalize combine value initial = combination at applied' ⊢
          cases combination with
          | error cause =>
              cases applied' with
              | error fault last => exact .error fault last
          | ok next =>
              cases applied' with
              | ok values location =>
                  -- The result is taken off again before the loop goes on.
                  exact (ih next { machine with location } enough).elsewhere

/-- The word `fold` comes to the combination of the values of the list. -/
theorem fold
    (ran : ∀ item result, Leaves depth [result, item] quotation ((combine item result).map ([·])))
    (items : Code) (initial : Value) (place : Option Location) (name : String) :
    Leaves (depth + 1) [.list quotation, initial, .list items]
      [⟨place, .word ⟨name, .primitive .fold⟩⟩]
      ((combined combine initial items).map ([·])) := by
  refine call (fun machine enough => ?_) place
  have taken : runHandler (callWord machine.room) ⟨name, .primitive .fold⟩
      (machine.topped [.list quotation, initial, .list items]) =
        loopItems (callWord machine.room) quotation (.fold initial) items machine := by
    rw [← foldItems_eq]
    exact runHandler_topped (show Primitive.fold.arity = [.list items, initial,
      .list quotation].length from rfl) name machine
  rw [taken] at enough ⊢
  exact comesTo_loopItems ran items initial machine enough

end Leaves

/-! ## Items of the prelude -/

namespace Prelude

/-- Code that reads as the items comes to this outcome. -/
def Makes (depth : Nat) (before : List Value) (items : List Item)
    (outcome : Except Cause (List Value)) : Prop :=
  ∀ code, Item.Reads items code → Leaves depth before code outcome

namespace Makes

variable {depth : Nat} {before between values : List Value} {item : Item} {items : List Item}
  {outcome : Except Cause (List Value)}

/-- An item in front that succeeds. -/
theorem still (first : Makes depth before [item] (.ok between))
    (rest : Makes depth between items outcome) : Makes depth before (item :: items) outcome := by
  intro code reads
  cases reads with
  | cons place is reads => exact (first _ (.cons place is .nil)).append (rest _ reads)

/-- An item in front that stops. -/
theorem stops {cause : Cause} (first : Makes depth before [item] (.error cause)) :
    Makes depth before (item :: items) (.error cause) := by
  intro code reads
  cases reads with
  | cons place is reads => exact (first _ (.cons place is .nil)).stops _

/-- Items that only change the values on top come to what they leave. -/
theorem of_does {after : List Value} (does : Does depth before items [] after) :
    Makes depth before items (.ok after) := by
  intro code reads
  exact .of_still (does code reads)

/-- A list is pushed, as code that reads as its items. -/
theorem list {inner : List Item}
    (rest : ∀ quotation, Item.Reads inner quotation →
      Makes depth (.list quotation :: values) items outcome) :
    Makes depth values (.list inner :: items) outcome := by
  intro code reads
  cases reads with
  | cons place is reads =>
      cases is with
      | list inner => exact (Leaves.of_still (.data rfl place)).append (rest _ inner _ reads)

/-- A literal is pushed. -/
theorem literal {text : String} {value : Value} (read : Literal.read? text = some value) :
    Does depth values [.literal text] [] (value :: values) := by
  intro code reads
  obtain ⟨place, element, rfl, is⟩ := reads.exists_singleton
  cases is with
  | literal read' =>
      obtain rfl := Option.some.inj (read.symm.trans read')
      exact .data rfl place

theorem word {word : Derived} (body : Makes depth before word.body outcome) :
    Makes (depth + 1) before [.word word] outcome := by
  intro code reads
  obtain ⟨place, element, rfl, is⟩ := reads.exists_singleton
  cases is with
  | word inner => exact (body _ inner).secondary place word.name

theorem operation {op : Operation} (arguments : List Value)
    (arity : (Primitive.operation op).arity = arguments.length) :
    Makes (depth + 1) (arguments.reverse ++ values) [.op op]
      ((op.apply arguments).map (·.reverse ++ values)) := by
  intro code reads
  obtain ⟨place, element, rfl, is⟩ := reads.exists_singleton
  cases is
  exact .operation arity place _

/-- A fold with a list that combines two values. -/
theorem fold {combine : Value → Value → Except Cause Value} {quotation : Code}
    (ran : ∀ item result, Leaves depth [result, item] quotation ((combine item result).map ([·])))
    (list : Code) (initial : Value) :
    Makes (depth + 1) [.list quotation, initial, .list list] [.primitive .fold]
      ((Leaves.combined combine initial list).map ([·])) := by
  intro code reads
  obtain ⟨place, element, rfl, is⟩ := reads.exists_singleton
  cases is
  exact .fold ran list initial place _

end Makes

end Prelude

end LiveStack
