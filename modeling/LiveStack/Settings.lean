import LiveStack.Decimal.Reading
import LiveStack.Text.Blank

/-!
# Settings

Where code is searched for, how deeply words may call each other, and how much stack the
evaluation gets. The environment can set each of them; a number that does not read as a positive
64-bit number is passed over. A stack can be asked for that no process has the addresses for; then
there is no evaluation at all.
-/

namespace LiveStack

/-- The settings of a run. -/
structure Settings where
  /-- The directories that are searched for code, in order. -/
  searchPaths : List String := []
  maxCallDepth : Nat := 50000
  /-- The size of the evaluation's stack, in bytes. -/
  stackSize : Nat := 512 * 1024 * 1024
deriving DecidableEq, Repr

namespace Settings

/-- The variable that lists the directories, with colons between them. -/
def pathVariable : String := "BRIEF_LIB_PATH"

/-- The variable that sets the call depth. -/
def depthVariable : String := "BRIEF_MAX_CALL_DEPTH"

/-- The variable that sets the stack size. -/
def stackVariable : String := "BRIEF_STACK_SIZE"

/-- The directories of a list with colons between them. An empty list names one empty path. -/
def splitPaths (list : String) : List String :=
  (Text.splitAtEach ':' list.toList).map String.ofList

/-- How many numbers there are of 64 bits. -/
def sizeCount : Nat := Nat.pow 2 64

/-- Read a limit: a positive number of 64 bits, perhaps with a plus sign, among blanks. -/
def readLimit? (text : String) : Option Nat := do
  let digits := match (Text.trim text).toList with
    | '+' :: digits => digits
    | digits => digits
  let limit ← Decimal.readNat? 10 digits
  if 0 < limit ∧ limit < sizeCount then some limit else none

/-- The settings that an environment asks for. -/
def ofEnvironment (lookup : String → Option String) : Settings :=
  let limitOr (fallback : Nat) (name : String) : Nat :=
    ((lookup name).bind readLimit?).getD fallback
  let standard : Settings := {}
  { searchPaths := ((lookup pathVariable).map splitPaths).getD standard.searchPaths
    maxCallDepth := limitOr standard.maxCallDepth depthVariable
    stackSize := limitOr standard.stackSize stackVariable }

/-- The number of addresses that a process can use, in bytes. -/
def addressCount : Nat := Nat.pow 2 47

/-- The page that guards the end of a stack, in bytes. -/
def guardSize : Nat := 4096

/-- The system's reason for refusing the evaluation its stack. A stack has to fit among the
addresses of a process together with its guard; if the two together do not even fit in 64 bits,
the request itself is refused. -/
def stackRefusal? (settings : Settings) : Option String :=
  let needed := settings.stackSize + guardSize
  if sizeCount ≤ needed then some "Invalid argument (os error 22)"
  else if addressCount ≤ needed then some "Resource temporarily unavailable (os error 11)"
  else none

/-- The settings with another call depth. -/
def withMaxCallDepth (settings : Settings) (maxCallDepth : Nat) : Settings :=
  { settings with maxCallDepth }

/-- The settings with one more directory to search, after the others. -/
def withSearchPath (settings : Settings) (path : String) : Settings :=
  { settings with searchPaths := settings.searchPaths ++ [path] }

end Settings

end LiveStack
