import LiveStack.Proofs.Run.Limits
import LiveStack.Proofs.Run.Words

/-!
# Runs are balanced

However a run ends, it takes off the call list all that it has put on it, and opens and closes no
context. What it adds to the store of handlers comes behind what was there, so that no index that
was given out before comes to mean another word. A fault that is raised on the way has the calls of
that moment in it: those that were open at the beginning, and on top of them those that the run has
opened, as far as the limit lets it.
-/

namespace LiveStack

open Execution

/-! ## Stores that only grow -/

namespace Layers

variable {α : Type}

/-- Every item of the first store has the same index in the second. -/
structure Within (first last : Layers α) : Prop where
  size_le : first.size ≤ last.size
  get?_eq : ∀ index < first.size, last.get? index = first.get? index

theorem Within.push {first last : Layers α} (within : first.Within last) (item : α) :
    first.Within (last.push item) := by
  constructor
  · have larger := within.size_le
    rw [size_push]
    omega
  · intro index old
    rw [get?_push_of_lt last item (Nat.lt_of_lt_of_le old within.size_le)]
    exact within.get?_eq index old

/-- Only the indices below the size find anything. -/
theorem lt_size_of_get? {layers : Layers α} {index : Nat} {item : α}
    (found : layers.get? index = some item) : index < layers.size := by
  by_cases newest : layers.newest.start ≤ index
  · have inside : layers.newest.items[index - layers.newest.start]? = some item := by
      simpa [get?, newest] using found
    have bound := (Array.getElem?_eq_some_iff.1 inside).1
    unfold size
    omega
  · unfold size
    omega

end Layers

/-- Every run keeps the handlers that there are where they are. -/
theorem Machine.Becomes.within {first last : Machine} (becomes : Becomes first last) :
    first.handlers.Within last.handlers := by
  refine becomes.keeps (first.handlers.Within ·.handlers) ?_ ⟨Nat.le_refl _, fun _ _ => rfl⟩
  intro before after change within
  cases change with
  | define name body valid => exact within.push _
  | _ => exact within

/-- A name that no run has defined anew means the word that it meant before. So what is known of the
words of a new machine is known of every later machine in which their names are still theirs. -/
theorem Machine.Becomes.bind_eq {first last : Machine} (becomes : Becomes first last)
    (orderly : first.Orderly) {name : String}
    (kept : last.dictionary.get? name = first.dictionary.get? name) :
    last.bind name = first.bind name := by
  rw [bind, bind, kept]
  cases found : first.dictionary.get? name with
  | none => rfl
  | some entry => exact becomes.within.get?_eq entry.handler (orderly.stored name entry found)

/-! ## Faults on the way -/

/-- The calls in a fault are those at the beginning of a run with more on top, within the limit. -/
def Fault.GrownFrom (fault : Fault) (limit : Nat) (entry : List Call) : Prop :=
  ∃ calls, fault.calls = some calls ∧ Grown limit entry calls

namespace Pace

variable {limit : Nat} {entry : List Call}

/-- At every moment, a fault on its way through the frames has grown calls in it. -/
theorem grown_of_alone {execution : Execution}
    (beside : (alone limit entry).Beside 0 execution execution) (count : Nat) {fault : Fault}
    (raised : (execution.after count).fault = some fault) : fault.GrownFrom limit entry := by
  have there := related_after beside_step beside count
  generalize execution.after count = last at there raised
  cases there with
  | overrun stopped overruns =>
      obtain rfl := Option.some.inj (stopped.symm.trans raised)
      obtain ⟨-, calls, listed, grown, -⟩ := overruns
      exact ⟨calls, listed, grown⟩
  | going machines => cases raised
  | stopped machines faults =>
      obtain rfl := Option.some.inj raised
      exact faults.2.2

theorem alone_ofCode (machine : Machine) (code : Code) :
    (alone machine.limit machine.calls).Beside 0 (ofCode machine code) (ofCode machine code) :=
  .going (alone_start machine)

theorem alone_ofSource (machine : Machine) (name source : String) :
    (alone machine.limit machine.calls).Beside 0 (ofSource machine name source)
      (ofSource machine name source) := by
  have here : (alone machine.limit machine.calls).machines (openCalls 0 []) machine machine :=
    alone_start machine
  exact beside_read here name source

theorem alone_ofWord (machine : Machine) (site : Location) (word : Word) :
    (alone machine.limit machine.calls).Beside 0 (ofWord machine site word)
      (ofWord machine site word) := by
  have here := alone_start machine
  by_cases full : machine.limit ≤ machine.calls.length
  · rw [ofWord, enter, if_pos full]
    exact .overrun rfl ((alone _ _).overrun here full)
  · rw [ofWord, enter, if_neg full]
    -- To be called from a place is to come to that place first.
    have visited := (alone _ _).act here (.visit (some site))
    exact beside_begin ((alone _ _).opened visited (Nat.not_le.1 full) word.name) word

end Pace

/-! ## Whole runs -/

theorem Execution.balanced_call (machine : Machine) (site : Location) (word : Word) :
    Balanced machine (Machine.call site word machine) :=
  (simulates_callWord machine.room site word machine [] rfl).2

namespace Machine

/-- What a run that begins on a machine owes to it: the execution on its way, and the fault and the
machine that it ends with. -/
structure Restored (machine : Machine) (execution : Execution)
    (outcome : Option Fault × Machine) : Prop where
  calls : outcome.2.calls = machine.calls
  dictionary : outcome.2.dictionary.depth = machine.dictionary.depth
  handlers : outcome.2.handlers.depth = machine.handlers.depth
  grown : machine.handlers.size ≤ outcome.2.handlers.size
  kept : ∀ index word, machine.handlers.get? index = some word →
    outcome.2.handlers.get? index = some word
  raised : ∀ count fault, (execution.after count).fault = some fault →
    fault.GrownFrom machine.limit machine.calls
  fault : ∀ fault, outcome.1 = some fault → fault.GrownFrom machine.limit machine.calls

theorem restored_of_ends {machine : Machine} {execution : Execution} {run : Run Unit}
    (alone : (Pace.alone machine.limit machine.calls).Beside 0 execution execution)
    (ends : EndsIn execution (run machine)) (becomes : Becomes machine (final (run machine)))
    (balanced : Balanced machine (run machine)) :
    machine.Restored execution (run.attempt machine) := by
  have last : (run.attempt machine).2 = final (run machine) := attempt_snd run machine
  -- A run changes no context but the newest, so as many are open as before.
  have older := congrArg Base.words becomes.base_eq
  have older' := congrArg Base.handlers becomes.base_eq
  have within := becomes.within
  rw [← last] at older older' within
  constructor
  · exact (congrArg Machine.calls last).trans balanced.1
  · exact congrArg (·.length + 1) older
  · exact congrArg (·.length + 1) older'
  · exact within.size_le
  · intro index word found
    rw [within.get?_eq index (Layers.lt_size_of_get? found)]
    exact found
  · intro count fault raised
    exact Pace.grown_of_alone alone count raised
  · intro fault stopped
    obtain ⟨count, ended⟩ := ends
    refine Pace.grown_of_alone alone count ?_
    rw [ended count (Nat.le_refl count), ← stopped, attempt_eq_settle]

/-- Running is balanced, on every machine, whether it succeeds or is stopped at any depth of calls.
The call list is in the end what it was, the dictionary and the handlers have as many contexts, and
every handler that there was has its index still, among more that may have come. The calls in a
fault, at any moment while it is on its way and in the end, are those at the beginning with more on
top, and never more than the limit allows, or than there were. -/
theorem running_is_balanced (machine : Machine) :
    (∀ name source, machine.Restored (ofSource machine name source)
      ((runSource name source).attempt machine)) ∧
    (∀ code, machine.Restored (ofCode machine code) ((runCode code).attempt machine)) ∧
    (∀ site word, machine.Restored (ofWord machine site word)
      ((call site word).attempt machine)) := by
  refine ⟨fun name source => ?_, fun code => ?_, fun site word => ?_⟩
  · exact restored_of_ends (Pace.alone_ofSource machine name source)
      (endsIn_runSource machine name source) (becomes_runSource machine name source)
      (balanced_runSource machine name source)
  · exact restored_of_ends (Pace.alone_ofCode machine code) (endsIn_runCode machine code)
      (becomes_runCode machine code) (balanced_runCode machine code)
  · exact restored_of_ends (Pace.alone_ofWord machine site word) (endsIn_call machine site word)
      (becomes_call machine site word) (balanced_call machine site word)

end Machine

end LiveStack
