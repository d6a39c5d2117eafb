import LiveStack.Proofs.Code.Places
import LiveStack.Proofs.Run.Calling

/-!
# Code that stands for other code

Code that is run above some values may do the same as other code run in their place, its expansion:
both fail for the same cause, or both succeed, and the first leaves some values more on top of what
the other leaves. The values above do not take part in what the expansion does.

For the words that only move values about and run quotations, such a statement about a word follows
from those about the items of its body. Each item is one rule here. A value is pushed; an operation
takes values that are known and gives others; a defined word does what its body does, with one call
more; `dip` does what the quotation does, below a value that is kept. Code of which nothing is known
is its own expansion, once the values above are pushed in front of it.

The calls that are open on the way count against the limit. So the expansion may be run instead of
the code where the code is not stopped for want of room, and the code instead of the expansion where
there is room for some calls more.
-/

namespace LiveStack

open Execution Run

/-! ## Values above a machine's stack -/

namespace Machine

/-- The machine with values on top of its stack, the first of them topmost. -/
def topped (values : List Value) (machine : Machine) : Machine :=
  { machine with stack := values ++ machine.stack }

/-- A result with values on top of the stack, if it is a success. -/
def crowned (values : List Value) :
    EStateM.Result Fault Machine Unit → EStateM.Result Fault Machine Unit
  | .ok result machine => .ok result (machine.topped values)
  | .error fault machine => .error fault machine

/-- Code that pushes values, so that the last ends on top. -/
def pushing (values : List Value) : Code :=
  values.map fun value => .made (.ofValue value)

@[simp] theorem crowned_nil (result : EStateM.Result Fault Machine Unit) :
    crowned [] result = result := by
  cases result <;> rfl

theorem crowned_crowned (above values : List Value) (result : EStateM.Result Fault Machine Unit) :
    crowned above (crowned values result) = crowned (above ++ values) result := by
  cases result with
  | ok value last => simp [crowned, topped]
  | error fault last => rfl

/-- The values on top of a stack are taken off it, the topmost last. -/
theorem split?_all_append (values taken stack : List Value) :
    split? values.length taken (values ++ stack) = some (values.reverse ++ taken, stack) := by
  induction values generalizing taken with
  | nil => rfl
  | cons value values ih =>
      rw [List.reverse_cons, List.append_assoc]
      exact ih (value :: taken)

theorem Matches.refl (machine : Machine) : machine.Matches machine := ⟨rfl, rfl, rfl, rfl, rfl⟩

theorem Matches.symm {first second : Machine} (same : first.Matches second) :
    second.Matches first :=
  ⟨same.host.symm, same.stack.symm, same.dictionary.symm, same.handlers.symm,
    same.diagnostics.symm⟩

theorem Matches.trans {first second third : Machine} (same : first.Matches second)
    (same' : second.Matches third) : first.Matches third :=
  ⟨same'.host.trans same.host, same'.stack.trans same.stack,
    same'.dictionary.trans same.dictionary, same'.handlers.trans same.handlers,
    same'.diagnostics.trans same.diagnostics⟩

theorem Matches.topped {first second : Machine} (same : first.Matches second)
    (values : List Value) : (first.topped values).Matches (second.topped values) :=
  ⟨same.host, congrArg (values ++ ·) same.stack, same.dictionary, same.handlers,
    same.diagnostics⟩

/-- A machine that matches one with values on top has them on top itself. -/
theorem Matches.exists_topped {first second : Machine} {values : List Value}
    (same : first.Matches (second.topped values)) :
    ∃ below : Machine, first = below.topped values ∧ below.calls = first.calls ∧
      below.limit = first.limit ∧ below.Matches second := by
  refine ⟨{ first with stack := second.stack }, ?_, rfl, rfl,
    ⟨same.host, rfl, same.dictionary, same.handlers, same.diagnostics⟩⟩
  have stack : first.stack = values ++ second.stack := same.stack.symm
  rw [Machine.topped, ← stack]

/-- An element that is data is pushed. -/
theorem runCode_data {element : Element} {value : Value} (data : element.value? = some value)
    (place : Option Location) (machine : Machine) :
    runCode [⟨place, element⟩] machine =
      .ok () { machine with
        location := place.or machine.location, stack := value :: machine.stack } := by
  cases element with
  | literal text own =>
      obtain rfl : own = value := Option.some.inj data
      rfl
  | quote code =>
      obtain rfl : Value.list code = value := Option.some.inj data
      rfl
  | word word => cases data
  | unknown text => cases data

theorem value?_ofValue (value : Value) : (Element.ofValue value).value? = some value := by
  cases value <;> rfl

/-- Code that pushes values leaves them on top, whatever they are. -/
theorem runCode_pushing (values : List Value) (machine : Machine) :
    runCode (pushing values) machine = .ok () (machine.topped values.reverse) := by
  induction values generalizing machine with
  | nil => rfl
  | cons value values ih =>
      have pieces : pushing (value :: values) = [.made (.ofValue value)] ++ pushing values := rfl
      rw [pieces, runCode_append, bind_apply, Instruction.made,
        runCode_data (value?_ofValue value)]
      simp only [Option.none_or]
      rw [ih, List.reverse_cons, topped, topped, List.append_assoc]
      rfl

theorem runCode_pushing_append (values : List Value) (code : Code) (machine : Machine) :
    runCode (pushing values ++ code) machine = runCode code (machine.topped values.reverse) := by
  rw [runCode_append, bind_apply, runCode_pushing]

theorem runCode_append_pushing (values : List Value) (code : Code) (machine : Machine) :
    runCode (code ++ pushing values) machine = crowned values.reverse (runCode code machine) := by
  rw [runCode_append, bind_apply]
  cases runCode code machine with
  | error fault last => rfl
  | ok value last => exact runCode_pushing values last

/-- A built-in word has taken its arguments off the stack when it does its work. -/
theorem runHandler_topped {primitive : Primitive} {arguments values : List Value}
    (arity : primitive.arity = arguments.length) (name : String) (machine : Machine) :
    runHandler (callWord machine.room) ⟨name, .primitive primitive⟩
        (machine.topped (arguments.reverse ++ values)) =
      runPrimitive (callWord machine.room) primitive arguments (machine.topped values) := by
  have pieces : runHandler (callWord machine.room) ⟨name, .primitive primitive⟩ =
      (takeArguments name primitive.arity >>= runPrimitive (callWord machine.room) primitive) := rfl
  have split : split? primitive.arity [] (arguments.reverse ++ values ++ machine.stack) =
      some (arguments, values ++ machine.stack) := by
    rw [arity, ← List.length_reverse, List.append_assoc, split?_all_append, List.reverse_reverse,
      List.append_nil]
  rw [pieces, bind_apply, takeArguments_apply, Execution.arguments, topped, split]
  rfl

end Machine

open Machine

theorem Matching.symm {result result' : EStateM.Result Fault Machine Unit}
    (same : Matching result result') : Matching result' result := by
  cases same with
  | ok same => exact .ok same.symm
  | error causes same => exact .error causes.symm same.symm

theorem Matching.crowned {result result' : EStateM.Result Fault Machine Unit}
    (same : Matching result result') (values : List Value) :
    Matching (crowned values result) (crowned values result') := by
  cases same with
  | ok same => exact .ok (same.topped values)
  | error causes same => exact .error causes same

theorem overruns_crowned {values : List Value} {result : EStateM.Result Fault Machine Unit} :
    Overruns (crowned values result) ↔ Overruns result := by
  cases result with
  | ok value last => exact ⟨nofun, nofun⟩
  | error fault last => exact Iff.rfl

/-- What is stopped for want of room, is stopped whatever comes behind. -/
theorem overruns_bind {run : Run Unit} {next : Unit → Run Unit} {machine : Machine}
    (overruns : Overruns (run machine)) : Overruns ((run >>= next) machine) := by
  obtain ⟨fault, last, failed, depth⟩ := overruns
  rw [bind_apply, failed]
  exact ⟨fault, last, rfl, depth⟩

/-! ## Room for code and for its expansion -/

/-- The first machine has room for so many calls more than the second, and for so many at all. -/
structure Machine.Spares (depth : Nat) (first second : Machine) : Prop where
  more : second.limit + first.calls.length + depth ≤ first.limit + second.calls.length
  room : first.calls.length + depth ≤ first.limit

/-- The first run is not stopped for want of room, and the second has no less room; or the second is
not, and the first has room for so many calls more. -/
inductive Fits (depth : Nat) (first second : Machine)
    (result result' : EStateM.Result Fault Machine Unit) : Prop
  | forth (room : first.limit + second.calls.length ≤ second.limit + first.calls.length)
      (fits : ¬ Overruns result) : Fits depth first second result result'
  | back (spares : Spares depth first second) (fits : ¬ Overruns result') :
      Fits depth first second result result'

namespace Fits

variable {depth : Nat} {first second first' second' : Machine}
  {result result' front front' : EStateM.Result Fault Machine Unit}

/-- Only the open calls and the limits of the machines count, and whether the runs are stopped. -/
theorem congr (fits : Fits depth first second result result') (calls : first'.calls = first.calls)
    (limit : first'.limit = first.limit) (calls' : second'.calls = second.calls)
    (limit' : second'.limit = second.limit) (fronts : Overruns front → Overruns result)
    (fronts' : Overruns front' → Overruns result') : Fits depth first' second' front front' := by
  cases fits with
  | forth room fits =>
      refine .forth ?_ (mt fronts fits)
      rwa [calls, limit, calls', limit']
  | back spares fits =>
      refine .back ⟨?_, ?_⟩ (mt fronts' fits)
      · rw [calls, limit, calls', limit']
        exact spares.more
      · rw [calls, limit]
        exact spares.room

/-- Inside a call, one call less is left. -/
theorem inside (fits : Fits (depth + 1) first second (closed result) result') (call : Call) :
    Fits depth (first.opened call) second result result' := by
  cases fits with
  | forth room fits =>
      refine .forth ?_ (mt overruns_closed fits)
      show first.limit + second.calls.length ≤ second.limit + (first.calls.length + 1)
      omega
  | back spares fits =>
      obtain ⟨more, room⟩ := spares
      refine .back ⟨?_, ?_⟩ fits
      · show second.limit + (first.calls.length + 1) + depth ≤ first.limit + second.calls.length
        omega
      · show first.calls.length + 1 + depth ≤ first.limit
        omega

end Fits

/-! ## Expansions -/

/-- Running the code above the values `before` is running its expansion in their place, and leaves
the values `after` above what that leaves, where there is room for so many calls more. -/
def Expands (depth : Nat) (before : List Value) (code expansion : Code) (after : List Value) :
    Prop :=
  ∀ first second : Machine, first.Matches second →
    Fits depth first second (Machine.runCode code (first.topped before))
      (Machine.runCode expansion second) →
    Matching (Machine.runCode code (first.topped before))
      (crowned after (Machine.runCode expansion second))

namespace Expands

variable {depth : Nat} {before between after values : List Value}
  {code code' expansion expansion' : Code}

theorem nil : Expands depth values [] [] values :=
  fun _ _ same _ => .ok (same.topped values)

/-- Where there is room for more calls, there is room for these. -/
theorem more {extra : Nat} (expands : Expands depth before code expansion after) :
    Expands (depth + extra) before code expansion after := by
  intro first second same fits
  refine expands first second same ?_
  cases fits with
  | forth room fits => exact .forth room fits
  | back spares fits =>
      obtain ⟨more, room⟩ := spares
      exact .back ⟨by omega, by omega⟩ fits

/-- Code behind code stands for the expansions, one behind the other. -/
theorem append (fronts : Expands depth before code expansion between)
    (backs : Expands depth between code' expansion' after) :
    Expands depth before (code ++ code') (expansion ++ expansion') after := by
  intro first second same fits
  have balanced := balanced_runCode (first.topped before) code
  have balanced' := balanced_runCode second expansion
  have front := fronts first second same
    (fits.congr rfl rfl rfl rfl
      (fun overruns => by rw [runCode_append]; exact overruns_bind overruns)
      (fun overruns => by rw [runCode_append]; exact overruns_bind overruns))
  rw [runCode_append, runCode_append, bind_apply, bind_apply] at fits ⊢
  generalize Machine.runCode code (first.topped before) = ran at *
  generalize Machine.runCode expansion second = ran' at *
  -- The code in front was stopped in both, or what is behind goes on from machines that match.
  cases ran' with
  | error fault' last' =>
      cases front with
      | error causes same => exact .error causes same
  | ok value' last' =>
      cases ran with
      | error fault last => cases front
      | ok value last =>
          cases front with
          | ok same =>
              obtain ⟨below, rfl, calls, limit, same⟩ := same.exists_topped
              exact backs below last' same
                (fits.congr (calls.trans balanced.1) (limit.trans balanced.2) balanced'.1
                  balanced'.2 id id)

/-- What is left on top may as well be pushed by the expansion. -/
theorem flush (expands : Expands depth before code expansion after) :
    Expands depth before code (expansion ++ pushing after.reverse) [] := by
  intro first second same fits
  rw [runCode_append_pushing, List.reverse_reverse] at fits ⊢
  rw [crowned_nil]
  exact expands first second same (fits.congr rfl rfl rfl rfl id overruns_crowned.2)

/-- Code of which nothing is known stands for itself, behind the values above. -/
theorem itself (code : Code) : Expands depth values code (pushing values.reverse ++ code) [] := by
  intro first second same fits
  rw [runCode_pushing_append, List.reverse_reverse] at fits ⊢
  rw [crowned_nil]
  have same' := same.topped values
  cases fits with
  | forth room fits =>
      have here : Pace.upToPlaces.machines 0 (first.topped values) (second.topped values) :=
        ⟨same', rfl, Nat.zero_le _, Nat.zero_le _, room⟩
      exact (Pace.ends_runCode here code).matching fits
  | back spares fits =>
      have room : second.limit + first.calls.length ≤ first.limit + second.calls.length :=
        Nat.le_trans (Nat.le_add_right ..) spares.more
      have here : Pace.upToPlaces.machines 0 (second.topped values) (first.topped values) :=
        ⟨same'.symm, rfl, Nat.zero_le _, Nat.zero_le _, room⟩
      exact ((Pace.ends_runCode here code).matching fits).symm

/-! ## Instructions -/

/-- Data is pushed. -/
theorem data {element : Element} {value : Value} (data : element.value? = some value)
    (place : Option Location) :
    Expands depth values [⟨place, element⟩] [] (value :: values) := by
  intro first second same _
  rw [runCode_data data]
  exact .ok ((same.topped (value :: values)).elsewhere ..)

/-- A word that is called does what it does inside the call. -/
theorem call {word : Word}
    (inside : ∀ first second : Machine, first.Matches second →
      Fits depth first second
        (runHandler (callWord first.room) word (first.topped before))
        (Machine.runCode expansion second) →
      Matching (runHandler (callWord first.room) word (first.topped before))
        (crowned after (Machine.runCode expansion second)))
    (place : Option Location) :
    Expands (depth + 1) before [⟨place, .word word⟩] expansion after := by
  intro first second same fits
  rw [runCode_word] at fits ⊢
  generalize Machine.site _ = site at fits ⊢
  let visited : Machine := (Act.visit place).on (first.topped before)
  by_cases full : first.limit ≤ first.calls.length
  · -- Without room for this call, neither run fits.
    have full' : visited.limit ≤ visited.calls.length := full
    rw [call_of_full full'] at fits
    cases fits with
    | forth room fits => exact absurd ⟨_, _, rfl, _, rfl⟩ fits
    | back spares fits =>
        have room := spares.room
        omega
  · have room : first.calls.length < first.limit := Nat.not_le.1 full
    have room' : visited.calls.length < visited.limit := room
    rw [call_of_room room'] at fits ⊢
    let opened : Machine := { first with
      location := some site, calls := ⟨word.name, site⟩ :: first.calls }
    have same' : opened.Matches second := same.elsewhere ..
    exact (inside opened second same' (fits.inside ⟨word.name, site⟩)).closed.1

/-- A defined word stands for what its body stands for. -/
theorem secondary {body : Code} (expands : Expands depth before body expansion after)
    (place : Option Location) (name : String) :
    Expands (depth + 1) before [⟨place, .word ⟨name, .secondary body⟩⟩] expansion after := by
  refine call (fun first second same fits => ?_) place
  exact expands first second same fits

/-- An operation takes its arguments, which are known, and leaves its results. -/
theorem operation {op : Operation} {arguments results : List Value}
    (applied : op.apply arguments = .ok results) (place : Option Location) (name : String) :
    Expands (depth + 1) (arguments.reverse ++ values)
      [⟨place, .word ⟨name, .primitive (.operation op)⟩⟩] [] (results.reverse ++ values) := by
  refine call (fun first second same _ => ?_) place
  have arity : (Primitive.operation op).arity = arguments.length := by
    by_contra wrong
    rw [Operation.apply_of_length_ne (Ne.symm wrong)] at applied
    cases applied
  have pieces : runPrimitive (callWord first.room) (.operation op) arguments =
      (ofExcept (op.apply arguments) >>= pushAll) := rfl
  have ran : runHandler (callWord first.room) ⟨name, .primitive (.operation op)⟩
      (first.topped (arguments.reverse ++ values)) =
        .ok () (first.topped (results.reverse ++ values)) := by
    rw [runHandler_topped arity, pieces, bind_apply, applied, ofExcept_ok]
    simp only
    rw [pushAll_apply, topped, topped, List.append_assoc]
  rw [ran]
  exact .ok (same.topped _)

/-- The word `dip` stands for what the quotation does under the value that is set aside. -/
theorem dip {quotation : Code} (expands : Expands depth before quotation expansion after)
    (x : Value) (place : Option Location) (name : String) :
    Expands (depth + 1) (.list quotation :: x :: before)
      [⟨place, .word ⟨name, .primitive .dip⟩⟩] expansion (x :: after) := by
  refine call (fun first second same fits => ?_) place
  have ran : runHandler (callWord first.room) ⟨name, .primitive .dip⟩
      (first.topped (.list quotation :: x :: before)) =
        crowned [x] (Machine.runCode quotation (first.topped before)) := by
    have pieces : runHandler (callWord first.room) ⟨name, .primitive .dip⟩
        (first.topped (.list quotation :: x :: before)) =
          (Machine.runCode quotation >>= fun _ => push x) (first.topped before) := rfl
    rw [pieces, bind_apply]
    cases Machine.runCode quotation (first.topped before) <;> rfl
  rw [ran] at fits ⊢
  have whole := (expands first second same
    (fits.congr rfl rfl rfl rfl overruns_crowned.2 id)).crowned [x]
  rwa [crowned_crowned] at whole

/-- A word of which nothing is known stands for itself, at whatever place. -/
theorem word (word : Word) (place place' : Option Location) :
    Expands depth values [⟨place, .word word⟩]
      (pushing values.reverse ++ [⟨place', .word word⟩]) [] := by
  intro first second same fits
  have moved (place : Option Location) (machine : Machine) :
      Machine.runCode [⟨place, .word word⟩] machine =
        Machine.runCode [.made (.word word)] ((Act.visit place).on machine) := by
    rw [runCode_word, Instruction.made, runCode_word]
    rfl
  have anywhere : Expands depth values [.made (.word word)]
      (pushing values.reverse ++ [.made (.word word)]) [] := itself _
  rw [runCode_pushing_append, moved place, moved place'] at fits ⊢
  have whole := anywhere ((Act.visit place).on first) ((Act.visit place').on second)
    (same.elsewhere ..)
  rw [runCode_pushing_append] at whole
  exact whole (fits.congr rfl rfl rfl rfl id id)

end Expands

end LiveStack
