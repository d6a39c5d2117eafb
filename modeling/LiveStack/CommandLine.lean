import LiveStack.Files
import LiveStack.Session
import LiveStack.Settings

/-!
# The command line

The program runs a file and prints the stack it leaves, or it takes editing commands, one to a
line, and prints the program and its stack after each. What it prints and how it ends is a
function of its arguments, its environment, its input and the files it can see.
-/

namespace LiveStack.CommandLine

/-- What the program was asked to do. -/
inductive Mode where
  | run (path : String)
  /-- Take editing commands from a file, or from the input. -/
  | edit (script : Option String)
  | usage
deriving DecidableEq, Repr

/-- What the arguments ask for. -/
def Mode.ofArguments : List String → Mode
  | [] => .usage
  | "--edit" :: rest => .edit rest.head?
  | path :: _ => .run path

/-- All that a run of the program depends on. -/
structure Surroundings where
  arguments : List String
  lookup : String → Option String
  files : Files
  input : ByteArray

/-- What a run of the program printed, how it ended, and the code it asked for by name. The text
that a panic itself puts out is no part of it. -/
structure Report where
  code : Nat := 0
  out : String := ""
  err : String := ""
  requests : Array String := #[]
deriving DecidableEq, Repr

namespace Report

/-- Print a line. -/
def print (report : Report) (line : String) : Report :=
  { report with out := report.out ++ line ++ "\n" }

/-- Print a line of trouble. -/
def complain (report : Report) (line : String) : Report :=
  { report with err := report.err ++ line ++ "\n" }

/-- End with a fault, as the thread that the program runs on reports it. -/
def failWith (report : Report) (fault : Fault) : Report :=
  { report.complain s!"Error: {fault.reported.render}" with code := 1 }

/-- Print the stack, a value to a line. -/
def printStack (report : Report) (stack : List Value) : Report :=
  stack.foldl (fun report value => report.print s!"  {value.source}") report

/-- Print what was shown to the user after the first `seen` messages. -/
def printAlerts (report : Report) (machine : Machine) (seen : Nat) : Report :=
  let report := (machine.host.alerts.toList.drop seen).foldl print report
  { report with requests := machine.host.requests }

end Report

/-! ## Editing commands -/

/-- What an editing command does with the text behind its name. -/
inductive Action where
  | edit (edit : String → Edit)
  /-- Make a word of the selection; `overwrite` says whether an old one may go. -/
  | define (overwrite : Bool)

/-- An editing command. -/
structure Command where
  name : String
  action : Action
  help : String

/-- The editing commands, sorted by name. -/
def commands : List Command :=
  [⟨"backspace", .edit fun _ => .deletePrev false false, "Delete backwards."⟩,
    ⟨"close", .edit fun _ => .closeList, "Step out of the list being typed."⟩,
    ⟨"define", .define false, "Make the selection a new word: define <name>"⟩,
    ⟨"delete", .edit fun _ => .deleteNext false false, "Delete forwards."⟩,
    ⟨"first", .edit fun _ => .moveFirst false, "Move to the front of the list."⟩,
    ⟨"last", .edit fun _ => .moveLast false, "Move to the end of the list."⟩,
    ⟨"left", .edit fun _ => .movePrev ⟨false, true, false⟩,
      "Move back, stepping out of lists."⟩,
    ⟨"left-in", .edit fun _ => .movePrev ⟨true, true, false⟩,
      "Move back, stepping into lists."⟩,
    ⟨"list", .edit fun _ => .insertList, "Open a new list."⟩,
    ⟨"quote", .edit fun _ => .quote, "Wrap the selection in a list."⟩,
    ⟨"redefine", .define true,
      "Make the selection a word, replacing any existing one: redefine <name>"⟩,
    ⟨"right", .edit fun _ => .moveNext ⟨false, true, false⟩,
      "Move forward, stepping out of lists."⟩,
    ⟨"right-in", .edit fun _ => .moveNext ⟨true, true, false⟩,
      "Move forward, stepping into lists."⟩,
    ⟨"select-all", .edit fun _ => .selectAll, "Select the whole program."⟩,
    ⟨"select-left", .edit fun _ => .movePrev ⟨false, false, true⟩,
      "Extend the selection back."⟩,
    ⟨"select-none", .edit fun _ => .selectNone, "Drop the selection."⟩,
    ⟨"select-right", .edit fun _ => .moveNext ⟨false, false, true⟩,
      "Extend the selection forward."⟩,
    ⟨"type", .edit .insertSource, "Insert source text: type <code>"⟩,
    ⟨"unquote", .edit fun _ => .unquote,
      "Replace the list under the cursor with its contents."⟩,
    ⟨"word", .edit .insertWord, "Insert a word: word <name>"⟩]

/-- The line of the help text for a command. -/
def Command.helpLine (command : Command) : String :=
  "".pushn ' ' (14 - command.name.length) ++ s!"{command.name}  {command.help}"

/-- The name of a command and the text behind its first space. -/
def splitCommand (line : String) : String × String :=
  let chars := line.toList
  (String.ofList (chars.takeWhile (· ≠ ' ')),
    String.ofList ((chars.dropWhile (· ≠ ' ')).drop 1))

/-- What an action makes of a session, and what came of the runs that it took. -/
def Action.on (action : Action) (argument : String) (session : Session) :
    Except Refusal Unit × Session × List (Option Fault × Machine) :=
  match action with
  | .edit editFor =>
      let (_, after) := session.apply (editFor argument)
      (.ok (), after, Session.refreshRuns session.machine after)
  | .define overwrite =>
      let (result, after) := session.defineSelection argument overwrite
      (result, after, session.definitionRuns argument overwrite after)

/-- Print the program with its stack, and complain about all that went wrong in running it. -/
def showSession (session : Session) (report : Report) : Report :=
  let evaluation := session.evaluation
  let printed := (report.print session.render).printStack evaluation.stack
  let complained := evaluation.diagnostics.foldl
    (fun (report : Report) problem => report.complain problem.render) printed
  match evaluation.fault with
  | some fault => complained.complain fault.render
  | none => complained

/-- Carry out a command on a session and show what is left. A refusal is complained about. Behind a
panic nothing is shown but what the program had shown by itself. -/
def perform (action : Action) (argument : String) (session : Session) (report : Report) :
    Except Fault Session × Report :=
  let (result, after, runs) := action.on argument session
  let seen := session.machine.host.alerts.size
  match Session.panicIn? runs with
  | some (fault, lost) => (.error fault, report.printAlerts lost seen)
  | none =>
      let report := report.printAlerts after.machine seen
      match result with
      | .ok _ => (.ok after, showSession after report)
      | .error refusal => (.ok after, showSession after (report.complain refusal.message))

/-- Take one line of editing commands, unless the session was lost in a panic. -/
def takeLine (state : Except Fault Session × Report) (line : String) :
    Except Fault Session × Report :=
  match state with
  | (.error _, _) => state
  | (.ok session, report) =>
      let line := Text.trim line
      if line.isEmpty then state
      else
        let (name, argument) := splitCommand line
        if name = "help" then
          (.ok session,
            commands.foldl (fun report command => report.print command.helpLine) report)
        else if name = "words" then
          (.ok session, { report with out := report.out ++ session.machine.dictionary.listing })
        else
          match commands.find? (·.name = name) with
          | none => (.ok session, report.complain s!"Unknown command '{name}', try help.")
          | some command => perform command.action (Text.trim argument) session report

/-! ## The program -/

/-- A text that was read, or the fault of its absence. -/
def textOrFault : Except String String → Except Fault String
  | .ok text => .ok text
  | .error reason => .error (.bare (.inputOutput reason))

/-- Run a file and print the stack it leaves. -/
def runFile (settings : Settings) (files : Files) (path : String) : Report :=
  let start : Except Fault (Machine × String) := do
    let machine ← Machine.bootstrapped settings.maxCallDepth (files.host settings.searchPaths)
    return (machine, ← textOrFault (files.readText path))
  match start with
  | .error fault => Report.failWith {} fault
  | .ok (machine, source) =>
      let (fault, machine) := (Machine.runSource path source).attempt machine
      let report := Report.printAlerts {} machine 0
      match fault with
      | some fault => report.failWith fault
      | none =>
          (machine.diagnostics.foldl
            (fun (report : Report) problem => report.complain problem.render)
            report).printStack machine.stack

/-- Take editing commands, from a file or from the input. -/
def runEditor (settings : Settings) (files : Files) (script : Option String)
    (input : ByteArray) : Report :=
  let start : Except Fault (Session × String) := do
    let session ← Session.new settings.maxCallDepth (files.host settings.searchPaths)
    let text := match script with
      | some path => files.readText path
      | none => Files.decode input
    return (session, ← textOrFault text)
  match start with
  | .error fault => Report.failWith {} fault
  | .ok (session, text) =>
      let (outcome, report) := (Text.lines text).foldl takeLine (.ok session, {})
      match Fault.joined outcome with
      | .ok _ => report
      | .error fault => report.failWith fault

/-- The paths that a run asks for by itself: the file to run, or the file of commands. -/
def Mode.paths : Mode → List String
  | .run path => [path]
  | .edit script => script.toList
  | .usage => []

/-- The paths that a run looked at for the code that it asked for by name. -/
def Report.paths (report : Report) (settings : Settings) : List String :=
  report.requests.toList.flatMap (Files.candidates settings.searchPaths)

/-- Do what the arguments ask for. -/
def runMode (settings : Settings) (surroundings : Surroundings) : Mode → Report
  | .run path => runFile settings surroundings.files path
  | .edit script => runEditor settings surroundings.files script surroundings.input
  | .usage =>
      Report.failWith {} (.bare (.plain "Usage: brief <file> | brief --edit [script]"))

/-- Run the program. Without a stack for the evaluation nothing else is looked at. -/
def run (surroundings : Surroundings) : Report :=
  let settings := Settings.ofEnvironment surroundings.lookup
  match settings.stackRefusal? with
  | some reason => Report.failWith {} (.bare (.inputOutput reason))
  | none => runMode settings surroundings (Mode.ofArguments surroundings.arguments)

end LiveStack.CommandLine
