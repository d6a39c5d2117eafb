import LiveStack.Document.Render
import LiveStack.Prelude

/-!
# Live sessions

A session is an editor with a machine beside it. After every edit the machine goes back to its
first state, the words that the user made are defined again in the order they were made, and the
program up to the cursor is run. So what a session shows depends on the program, the cursor and
the words made, and not on what was run before.
-/

namespace LiveStack

/-- What came of running the program up to the cursor. -/
structure Evaluation where
  /-- The text that was run. -/
  source : String := ""
  /-- The stack after the run, top first. -/
  stack : List Value := []
  diagnostics : List Fault := []
  /-- The fault that stopped the run, if one did. -/
  fault : Option Fault := none

/-- Why the selection can't become a word. -/
inductive Refusal where
  | noSelection
  | emptyName
  | quotedName
  | invalidName (name reason : String)
  /-- The name means something already, and was not to be replaced. -/
  | alreadyDefined (name : String)
  /-- The definition itself did not run. -/
  | failed (fault : Fault)
deriving DecidableEq, Repr

/-- The wording of a refusal. -/
def Refusal.message : Refusal → String
  | .noSelection => "Nothing is selected."
  | .emptyName => "A new word needs a name."
  | .quotedName => "Names cannot begin with double quotes."
  | .invalidName name reason => s!"Invalid word name '{name}': {reason}."
  | .alreadyDefined name => s!"'{name}' is already defined."
  | .failed fault => fault.render

/-- One edit of the program. -/
inductive Edit where
  | movePrev (motion : Motion)
  | moveNext (motion : Motion)
  | moveFirst (select : Bool)
  | moveLast (select : Bool)
  | insertWord (text : String)
  | insertList
  | closeList
  | insertSource (source : String)
  | deletePrev (stepIn stepOut : Bool)
  | deleteNext (stepIn stepOut : Bool)
  | selectAll
  | selectNone
  | quote
  | unquote
deriving DecidableEq, Repr

/-- Apply an edit; says whether it did anything. -/
def Edit.apply (edit : Edit) (classify : Editor.Classifier) (editor : Editor) : Bool × Editor :=
  match edit with
  | .movePrev motion => editor.movePrev motion
  | .moveNext motion => editor.moveNext motion
  | .moveFirst select => editor.moveFirst select
  | .moveLast select => editor.moveLast select
  | .insertWord text => (true, editor.insertWord classify text)
  | .insertList => (true, editor.insertList.2)
  | .closeList => editor.closeList
  | .insertSource source => (true, editor.insertSource classify source)
  | .deletePrev stepIn stepOut => editor.deletePrev stepIn stepOut
  | .deleteNext stepIn stepOut => editor.deleteNext stepIn stepOut
  | .selectAll => (true, editor.selectAll)
  | .selectNone => (true, editor.selectNone)
  | .quote =>
      let (list, editor) := editor.quoteSelection
      (list.isSome, editor)
  | .unquote => editor.unquote

/-- A word that the user made: its name, and the text that defines it. -/
structure Definition where
  name : String
  source : String
deriving DecidableEq, Repr

/-- An editor, the machine that runs its program, and the words made in it. -/
structure Session where
  editor : Editor
  machine : Machine
  /-- The words made, oldest first. -/
  definitions : List Definition := []
  evaluation : Evaluation := {}

namespace Session

/-- The name of the edited program as a text. -/
def editorSource : String := "<editor>"

/-- The name of the definitions as texts. -/
def definitionSource : String := "<definition>"

/-- A session on an empty program. -/
def new (limit : Nat) (host : Host) : Except Fault Session := do
  let machine ← Machine.bootstrapped limit host
  return { editor := .new, machine }

/-- How a token reads with the words known now. -/
def classify (session : Session) : Editor.Classifier := session.machine.dictionary.classify

/-- Every defined name, in order. -/
def words (session : Session) : List String := session.machine.dictionary.names

/-- The editor as a line of text. -/
def render (session : Session) : String := session.editor.render

/-- The machine in its first state, with the given words made in order. A definition that fails
is passed over. -/
def replay (machine : Machine) (definitions : List Definition) : Machine :=
  let fresh := match machine.reset with
    | .ok released => released
    | .error _ => machine
  definitions.foldl (fun machine definition =>
    ((Machine.runSource definitionSource definition.source).attempt machine).2) fresh

/-- Run a source text from the first state of the machine, with the words made so far. -/
def evaluate (session : Session) (source : String) : Session :=
  let replayed := replay session.machine session.definitions
  let ready := { replayed with stack := [], diagnostics := [] }
  let (fault, machine) := (Machine.runSource editorSource source).attempt ready
  { session with
    machine := { machine with diagnostics := [] }
    evaluation := {
      source, fault
      stack := machine.stack
      diagnostics := machine.diagnostics } }

/-- Run the program up to the cursor, then classify the words with what it defined. -/
def refresh (session : Session) : Session :=
  let session := session.evaluate session.editor.sourceToCursor
  { session with editor := session.editor.reclassify session.classify }

/-- Apply an edit and run the result; says whether the edit did anything. -/
def apply (session : Session) (edit : Edit) : Bool × Session :=
  let (changed, editor) := edit.apply session.classify session.editor
  (changed, refresh { session with editor })

/-- Replace the program by a source text and run it. -/
def load (session : Session) (source : String) : Session :=
  refresh { session with
    editor := session.editor.clear.insertSource session.classify source }

/-- The text that makes a word of the given source. -/
def definitionOf (name source : String) : String :=
  s!"[ {source}] {Text.Quoted.encode name} define"

/-- The selected source text, if a word of this name can be made of it. A name that means
something already is only replaced if `overwrite` is set. -/
def selectionFor (session : Session) (name : String) (overwrite : Bool) :
    Except Refusal String := do
  let some source := session.editor.selectionSource? | throw .noSelection
  if name.isEmpty then throw .emptyName
  if name.toList.head? = some '"' then throw .quotedName
  if let some reason := nameProblem? name then throw (.invalidName name reason)
  if !overwrite && session.classify name ≠ .unknown then throw (.alreadyDefined name)
  return source

/-- Make a word of the selection, and put the word in its place. -/
def defineSelection (session : Session) (name : String) (overwrite : Bool) :
    Except Refusal Unit × Session :=
  match session.selectionFor name overwrite with
  | .error refusal => (.error refusal, session)
  | .ok selected =>
      let source := definitionOf name selected
      let (fault, machine) :=
        (Machine.runSource definitionSource source).attempt session.machine
      let session := { session with machine }
      match fault with
      | some fault => (.error (.failed fault), session)
      | none =>
          let (_, editor) := session.editor.deleteSelection
          (.ok (), refresh { session with
            definitions := session.definitions ++ [⟨name, source⟩]
            editor := editor.insertWord session.classify name })

/-! ## Panics

Nothing goes on behind a run that panics. What a session is afterwards says nothing then: it is the
one that would be left if the other runs were made all the same.
-/

/-- What comes of each run in which the given words are made, from the first state of the machine
on. -/
def replays (machine : Machine) (definitions : List Definition) : List (Option Fault × Machine) :=
  definitions.scanl (fun made definition =>
    (Machine.runSource definitionSource definition.source).attempt made.2)
    (none, replay machine [])

/-- What has come of the runs of a refresh that began on this machine and left this session: those
of the words made, then that of the program. -/
def refreshRuns (machine : Machine) (after : Session) : List (Option Fault × Machine) :=
  replays machine after.definitions ++ [(after.evaluation.fault, after.machine)]

/-- What has come of the runs of making a word, which left the session `after`: that of the
definition, and those of the refresh behind it. -/
def definitionRuns (session : Session) (name : String) (overwrite : Bool) (after : Session) :
    List (Option Fault × Machine) :=
  match session.selectionFor name overwrite with
  | .error _ => []
  | .ok selected =>
      let made := (Machine.runSource definitionSource (definitionOf name selected)).attempt
        session.machine
      if made.1.isSome then [made] else made :: refreshRuns made.2 after

/-- The first panic among the runs, and the machine that was left then. -/
def panicIn? (runs : List (Option Fault × Machine)) : Option (Fault × Machine) :=
  runs.findSome? fun (fault, machine) => (fault.filter Fault.isPanic).map (·, machine)

/-! ## Completion -/

/-- Whether `text` begins with `start`. -/
def beginsWith (text start : String) : Bool := start.toList.isPrefixOf text.toList

/-- Complete a token that is being typed: to the first word that begins with it if it means
nothing yet, else to a truth, else by closing the quotes of an open string. -/
def complete (session : Session) (token : String) : String :=
  if token.isEmpty then ""
  else
    let word :=
      if session.classify token = .unknown then session.words.find? (beginsWith · token) else none
    match word.or (["true", "false"].find? (beginsWith · token)) with
    | some completed => completed
    | none =>
        let chars := token.toList
        let isOpen := chars.head? = some '"' ∧ (chars.length = 1 ∨ chars.getLast? ≠ some '"')
        if isOpen then token ++ "\"" else token

end Session

end LiveStack
