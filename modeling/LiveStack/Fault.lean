import LiveStack.Location

/-!
# Faults

A `Fault` is anything that reading or running code can report: a cause, the place it was met at,
and the words that were being called. Causes are data; `Cause.message` holds all their wording.
-/

namespace LiveStack

/-- A word being executed: its name, and where it was called from. -/
structure Call where
  word : String
  site : Location
deriving DecidableEq, Repr

/-- The written form, `site: word`. -/
def Call.render (call : Call) : String :=
  s!"{call.site.render}: {call.word}"

/-- What can go wrong. -/
inductive Cause where
  /-- A word was called with fewer values than it takes. -/
  | stackUnderflow (word : String) (needed found : Nat)
  | typeMismatch (expected found : String)
  | divisionByZero
  /-- The text ended inside a string; holds the text from its opening quote on. -/
  | unterminatedString (text : String)
  /-- A closing bracket with no list left to close. -/
  | unbalancedClose
  | callDepthExceeded (limit : Nat)
  /-- The host has no code of this name. -/
  | unknownCode (name : String)
  | invalidName (name reason : String)
  /-- The operating system refused a file. -/
  | inputOutput (reason : String)
  /-- Any other failure, in its own words. -/
  | plain (text : String)
  /-- More room was asked for than there are addresses. The language has no error for this: the run
  panics, so nothing goes on from here, and nobody sees the machine that is left. -/
  | capacityOverflow
deriving DecidableEq, Repr

/-- The wording of a cause. -/
def Cause.message : Cause → String
  | .stackUnderflow word needed found =>
      s!"Stack underflow, {word} needs {needed} value(s) but found {found}."
  | .typeMismatch expected found => s!"Expected {expected}, found {found}."
  | .divisionByZero => "Division by zero."
  | .unterminatedString text => s!"Incomplete string token: '{text}'."
  | .unbalancedClose => "Unbalanced ']' ignored."
  | .callDepthExceeded limit => s!"Call depth exceeded the limit of {limit}."
  | .unknownCode name => s!"No code named '{name}' could be found."
  | .invalidName name reason => s!"Invalid word name '{name}': {reason}"
  | .inputOutput reason => s!"I/O error: {reason}"
  | .plain text => text
  | .capacityOverflow => "capacity overflow"

/-- A cause with its circumstances. Problems of reading, which happen outside any call, have no
call list. -/
structure Fault where
  location : Option Location
  cause : Cause
  /-- The words being executed, innermost first. -/
  calls : Option (List Call)
deriving DecidableEq, Repr

namespace Fault

/-- A problem of reading, at a place in the text. -/
def reading (place : Location) (cause : Cause) : Fault := ⟨some place, cause, none⟩

/-- A problem met outside any text. -/
def bare (cause : Cause) : Fault := ⟨none, cause, none⟩

/-- Whether the run panicked, which is no error of the language. -/
def isPanic (fault : Fault) : Bool := fault.cause = .capacityOverflow

/-- The thread that did the work panicked. -/
def workerLost : Fault := bare (.plain "The evaluation thread panicked.")

/-- What is told of work that was done on a thread of its own: the answer, or that the thread was
lost, whatever it panicked for. -/
def joined {ε α : Type} : Except ε α → Except Fault α
  | .ok answer => .ok answer
  | .error _ => .error workerLost

/-- What is told of a run on a thread of its own that ended with this fault. -/
def reported (fault : Fault) : Fault := if fault.isPanic then workerLost else fault

/-- The first line: the place, if known, and the wording. -/
def headline (fault : Fault) : String :=
  match fault.location with
  | some place => s!"{place.render}: {fault.cause.message}"
  | none => fault.cause.message

/-- The whole report: the first line, then the calls from the innermost outwards. -/
def render (fault : Fault) : String :=
  match fault.calls with
  | some (call :: calls) =>
      fault.headline ++ "\n\nCall stack\n" ++
        String.join ((call :: calls).map fun item => s!"  {item.render}\n")
  | _ => fault.headline

end Fault

end LiveStack
