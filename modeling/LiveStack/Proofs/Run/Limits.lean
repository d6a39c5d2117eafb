import LiveStack.Proofs.Run.Pace

/-!
# The limit of the calls is only a guard

The limit of a machine is compared with the number of open calls whenever a word is called, and with
nothing else. So a run that is not stopped for its sake ends in the same way under every limit that
is at least as large. A run that is stopped for its sake has by then opened as many calls as it
could: up to the limit, or none at all where the machine had as many open from the beginning.
-/

namespace LiveStack

open Execution

/-- The run has been stopped because there was no room for a call. -/
def Overruns (result : EStateM.Result Fault Machine Unit) : Prop :=
  ∃ fault last, result = .error fault last ∧ fault.cause.IsOverrun

namespace Machine

/-- The machine with another limit of its calls. -/
def allowing (limit : Nat) (machine : Machine) : Machine := { machine with limit }

/-- A result, on a machine with another limit of its calls. -/
def granted (limit : Nat) :
    EStateM.Result Fault Machine Unit → EStateM.Result Fault Machine Unit
  | .ok result machine => .ok result (machine.allowing limit)
  | .error fault machine => .error fault (machine.allowing limit)

end Machine

/-- A call list that has grown from that at the beginning of a run, as far as the limit lets it. -/
structure Grown (limit : Nat) (entry calls : List Call) : Prop where
  upon : entry <:+ calls
  short : calls.length ≤ max limit entry.length

namespace Pace

/-- A run beside one under a limit that is at least as large: all else is the same. -/
def allowing (limit : Nat) : Pace where
  machines _ first second := second = first.allowing limit ∧ first.limit ≤ limit
  faults fault fault' := fault' = fault
  overruns fault := fault.cause.IsOverrun
  view_eq := by
    rintro _ first _ ⟨rfl, -⟩
    rfl
  act := by
    rintro _ first _ ⟨rfl, le⟩ act
    cases act <;> exact ⟨rfl, le⟩
  opened := by
    rintro _ first _ ⟨rfl, le⟩ - name
    exact ⟨rfl, le⟩
  returned := by
    rintro _ first _ ⟨rfl, le⟩
    exact ⟨rfl, le⟩
  caller_eq := by
    rintro _ first _ ⟨rfl, -⟩
    rfl
  room := by
    rintro _ first _ ⟨rfl, le⟩ room
    exact Nat.lt_of_lt_of_le room le
  fault := by
    rintro _ first _ ⟨rfl, -⟩ cause -
    rfl
  overrun := fun _ _ => ⟨_, rfl⟩

/-- A run beside itself, with the calls that it has opened on top of those at its beginning. -/
def alone (limit : Nat) (entry : List Call) : Pace where
  machines calls first second := second = first ∧ first.limit = limit ∧
    Grown limit entry first.calls ∧ first.calls.length = entry.length + calls
  faults fault fault' := fault' = fault ∧ ¬ fault.cause.IsOverrun ∧
    ∃ calls, fault.calls = some calls ∧ Grown limit entry calls
  overruns fault := fault.cause = .callDepthExceeded limit ∧
    ∃ calls, fault.calls = some calls ∧ Grown limit entry calls ∧
      calls.length = max limit entry.length
  view_eq := by
    rintro _ _ machine ⟨rfl, -⟩
    rfl
  act := by
    rintro _ _ machine ⟨rfl, here⟩ act
    cases act <;> exact ⟨rfl, here⟩
  opened := by
    rintro _ _ machine ⟨rfl, rfl, grown, count⟩ room name
    refine ⟨rfl, rfl, ⟨grown.upon.trans (List.suffix_cons _ _), ?_⟩, ?_⟩
    · exact Nat.le_trans room (Nat.le_max_left ..)
    · exact congrArg (· + 1) count
  returned := by
    rintro _ _ machine ⟨rfl, rfl, ⟨upon, short⟩, count⟩
    obtain ⟨opened, list⟩ := upon
    cases opened with
    | nil =>
        -- One call at least has been opened.
        rw [← list, List.nil_append] at count
        omega
    | cons call opened =>
        have left : machine.returned.calls = opened ++ entry := by
          rw [Machine.returned, ← list]
          rfl
        have shorter : machine.calls.length = machine.returned.calls.length + 1 := by
          rw [left, ← list]
          rfl
        exact ⟨rfl, rfl, ⟨⟨opened, left.symm⟩, by omega⟩, by omega⟩
  caller_eq := by
    rintro _ _ machine ⟨rfl, -⟩
    rfl
  room := by
    rintro _ _ machine ⟨rfl, -⟩ room
    exact room
  fault := by
    rintro _ _ machine ⟨rfl, -, grown, -⟩ cause other
    exact ⟨rfl, other, _, rfl, grown⟩
  overrun := by
    rintro _ _ machine ⟨rfl, rfl, grown, count⟩ full
    refine ⟨rfl, _, rfl, grown, Nat.le_antisymm grown.short (Nat.max_le.2 ⟨full, ?_⟩)⟩
    rw [count]
    exact Nat.le_add_right ..

/-- A run begins with the calls that are open at its beginning. -/
theorem alone_start (machine : Machine) :
    (alone machine.limit machine.calls).machines 0 machine machine :=
  ⟨rfl, rfl, ⟨List.suffix_refl _, Nat.le_max_right ..⟩, rfl⟩

/-- At any moment of a run, there is one open call for each frame of a call, besides those at its
beginning. -/
theorem alone_of_leads {start machine : Machine} {code : Code} {frames : List Frame}
    (leads : Leads (ofCode start code) ⟨machine, frames, none⟩) :
    (alone start.limit start.calls).machines (openCalls 0 frames) machine machine := by
  obtain ⟨count, there⟩ := leads
  have beside : (alone start.limit start.calls).Beside 0 (ofCode start code) (ofCode start code) :=
    .going (alone_start start)
  have last := related_after beside_step beside count
  rw [there] at last
  cases last with
  | overrun stopped => cases stopped
  | going machines => exact machines

end Pace

namespace Machine

/-- A text runs in the same way under every limit of the calls that is large enough for it. If the
limit is too small, as many calls are open in the end as it allows, or as were open before. -/
theorem limit_only_guards (machine : Machine) (name source : String) :
    (∀ limit, machine.limit ≤ limit → ¬ Overruns (runSource name source machine) →
      runSource name source (machine.allowing limit) =
        granted limit (runSource name source machine)) ∧
    (∀ fault last, runSource name source machine = .error fault last → fault.cause.IsOverrun →
      fault.cause = .callDepthExceeded machine.limit ∧
      ∃ calls, fault.calls = some calls ∧
        calls.length = max machine.limit machine.calls.length) := by
  constructor
  · intro limit le fits
    have here : (Pace.allowing limit).machines 0 machine (machine.allowing limit) := ⟨rfl, le⟩
    have ends := Pace.ends_runSource here name source
    generalize runSource name source machine = result at *
    generalize runSource name source (machine.allowing limit) = result' at *
    -- At one pace under both limits, the runs end alike unless the smaller limit stopped one.
    cases ends with
    | overrun overruns => exact absurd ⟨_, _, rfl, overruns⟩ fits
    | ok machines => rw [machines.1, granted]
    | error machines faults => rw [machines.1, faults, granted]
  · intro fault last ran depth
    have ends := Pace.ends_runSource (Pace.alone_start machine) name source
    rw [ran] at ends
    cases ends with
    | overrun overruns =>
        obtain ⟨cause, calls, listed, -, length⟩ := overruns
        exact ⟨cause, calls, listed, length⟩
    | error machines faults => exact absurd depth faults.2.1

/-- With room for one call, `dup` runs as it does with room for more. The word `double`, whose body
calls `dup`, needs a second one, and stops inside the first. -/
theorem limit_only_guards_of_double :
    let dup : Word := ⟨"dup", .primitive (.operation .dup)⟩
    let machine := ((new 1 .empty).addPrimitive (.operation .dup)).define "double"
      [.made (.word dup)]
    (∃ last, runSource "text" "true dup" machine = .ok () last ∧
      last.stack = [.bool true, .bool true] ∧
      runSource "text" "true dup" (machine.allowing 9) = .ok () (last.allowing 9)) ∧
    ∃ fault last calls, runSource "text" "true double" machine = .error fault last ∧
      fault.cause = .callDepthExceeded 1 ∧ fault.calls = some calls ∧ calls.length = 1 := by
  intro dup machine
  have runs (source : String) := endsIn_runSource machine "text" source
  obtain ⟨last, ran, stack⟩ : ∃ last, runSource "text" "true dup" machine = .ok () last ∧
      last.stack = [.bool true, .bool true] :=
    ⟨_, (runs "true dup").unique (endsIn_of_leads ⟨4, rfl⟩), rfl⟩
  obtain ⟨fault, stopped, failed, cause⟩ : ∃ fault last,
      runSource "text" "true double" machine = .error fault last ∧
      fault.cause = .callDepthExceeded 1 :=
    ⟨_, _, (runs "true double").unique (endsIn_of_leads ⟨6, rfl⟩), rfl⟩
  have fits : ¬ Overruns (runSource "text" "true dup" machine) := by
    rintro ⟨_, _, failed, -⟩
    cases ran.symm.trans failed
  have same := (limit_only_guards machine "text" "true dup").1 9 (by decide) fits
  obtain ⟨_, calls, listed, length⟩ :=
    (limit_only_guards machine "text" "true double").2 fault stopped failed ⟨1, cause⟩
  rw [ran] at same
  exact ⟨⟨last, ran, stack, same⟩, fault, stopped, calls, failed, cause, listed, length⟩

end Machine

end LiveStack
