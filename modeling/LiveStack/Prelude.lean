import LiveStack.Run

/-!
# The prelude

The words of the language that are written in the language itself, on top of the built-in ones.
A new machine reads them line by line, so that each can use the ones above it.
-/

namespace LiveStack

namespace Prelude

/-- The name of the prelude as a text. -/
def sourceName : String := "<prelude>"

/-- The definitions, one to a line. -/
def definitions : List String :=
  [
    "[ dup dip drop ]                       \"apply\"     define",
    "[ [ ] cons dip ]                       \"swap\"      define",
    "[ ? apply ]                            \"if\"        define",
    "[ [ ] if ]                             \"when\"      define",
    "[ [ ] swap if ]                        \"unless\"    define",
    "[ dup * ]                              \"square\"    define",
    "[ 1 [ * ] fold ]                       \"prod\"      define",
    "[ 1 range prod ]                       \"factorial\" define",
    "[ 0 [ + ] fold ]                       \"sum\"       define",
    "[ drop drop ]                          \"2drop\"     define",
    "[ drop drop drop ]                     \"3drop\"     define",
    "[ 0 swap - ]                           \"neg\"       define",
    "[ dup 0 < [ neg ] when ]               \"abs\"       define",
    "[ swap drop ]                          \"nip\"       define",
    "[ [ 2drop ] dip ]                      \"2nip\"      define",
    "[ [ dup ] dip swap ]                   \"over\"      define",
    "[ over over ]                          \"2dup\"      define",
    "[ [ over ] dip swap ]                  \"pick\"      define",
    "[ pick pick pick ]                     \"3dup\"      define",
    "[ [ dup ] dip ]                        \"dupd\"      define",
    "[ [ swap ] dip ]                       \"swapd\"     define",
    "[ swapd swap ]                         \"rot\"       define",
    "[ rot rot ]                            \"-rot\"      define",
    "[ swap [ dip ] dip ]                   \"2dip\"      define",
    "[ swap [ 2dip ] dip ]                  \"3dip\"      define",
    "[ swap [ 3dip ] dip ]                  \"4dip\"      define",
    "[ dupd dip ]                           \"keep\"      define",
    "[ [ 2dup ] dip 2dip ]                  \"2keep\"     define",
    "[ [ 3dup ] dip 3dip ]                  \"3keep\"     define",
    "[ [ keep ] dip apply ]                 \"bi\"        define",
    "[ [ sum ] [ length ] bi / ]            \"average\"   define",
    "[ [ 2keep ] dip apply ]                \"2bi\"       define",
    "[ [ 3keep ] dip apply ]                \"3bi\"       define",
    "[ [ keep ] 2dip [ keep ] dip apply ]   \"tri\"       define",
    "[ [ 2keep ] 2dip [ 2keep ] dip apply ] \"2tri\"      define",
    "[ [ 3keep ] 2dip [ 3keep ] dip apply ] \"3tri\"      define",
    "[ [ dip ] dip apply ]                  \"bi*\"       define",
    "[ [ 2dip ] dip apply ]                 \"2bi*\"      define",
    "[ [ 2dip ] 2dip [ dip ] dip apply ]    \"tri*\"      define",
    "[ [ 4dip ] 2dip [ 2dip ] dip apply ]   \"2tri*\"     define",
    "[ dup 2dip apply ]                     \"bi@\"       define",
    "[ dup 3dip apply ]                     \"2bi@\"      define",
    "[ dup 3dip dup 2dip apply ]            \"tri@\"      define",
    "[ dup 4dip apply ]                     \"2tri@\"     define",
    "[ bi@ and ]                            \"both?\"     define",
    "[ bi@ or ]                             \"either?\"   define" ]

/-- Read and run one definition. A line that does not read cleanly stops the prelude. -/
def load (definition : String) : Run Unit := do
  Machine.runSource sourceName definition
  match (← get).diagnostics with
  | [] => pure ()
  | problem :: _ => throw problem

end Prelude

namespace Machine

/-- A machine with the built-in words and the prelude. A context is marked above them, so that a
reset comes back to this state. -/
def bootstrapped (limit : Nat) (host : Host) : Except Fault Machine :=
  let machine := Primitive.all.foldl addPrimitive (new limit host)
  match Prelude.definitions.forM Prelude.load machine with
  | .ok _ machine => .ok (mark { machine with stack := [] })
  | .error fault _ => .error fault

end Machine

end LiveStack
