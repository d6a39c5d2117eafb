import LiveStack.CommandLine

/-!
# The program

Everything the program does is `CommandLine.run`, a function of what it can see. This layer reads
what it needs to see and prints the report. Which files that takes is found out by running: as
long as a run asked for code at paths that were not looked at yet, they are looked at and the run
is done again.
-/

namespace LiveStack.CommandLine

/-- The number of a system error. Some come with their sign turned. -/
def systemNumber (code : UInt32) : UInt32 := min code (0 - code)

/-- What is at a path that could not be read. -/
def entryOfError : IO.Error → FileEntry
  | .noFileOrDirectory .. => FileTree.notFound
  | .permissionDenied .. => .unreadable "Permission denied (os error 13)"
  | .inappropriateType _ code _ =>
      if systemNumber code = 21 then .directory else FileTree.notDirectory
  | .invalidArgument path code details =>
      if systemNumber code = 36 then FileTree.tooLong
      else .missing (toString (IO.Error.invalidArgument path code details))
  | error => .missing (toString error)

/-- Look at a path. -/
def lookAt (path : String) : IO FileEntry := do
  try
    return .file (← IO.FS.readBinFile path)
  catch error =>
    return entryOfError error

/-- Look at those of the paths that are not known yet. -/
def lookAtNew (known : List (String × FileEntry)) (paths : List String) :
    IO (List (String × FileEntry)) :=
  (paths.eraseDups.filter fun path => (known.lookup path).isNone).mapM fun path => do
    return (path, ← lookAt path)

/-- Run until nothing is asked for that was not looked at. -/
partial def runSeeing (surroundings : Files → Surroundings) (settings : Settings)
    (known : List (String × FileEntry)) : IO Report := do
  let files : Files := fun path => (known.lookup path).getD FileTree.notFound
  let report := run (surroundings files)
  let seen ← lookAtNew known (report.paths settings)
  if seen.isEmpty then return report
  else runSeeing surroundings settings (known ++ seen)

/-- The variables of the environment that the program reads. -/
def readVariables : IO (List (String × String)) := do
  let names := [Settings.pathVariable, Settings.depthVariable, Settings.stackVariable]
  let values ← names.mapM fun name => return (name, ← IO.getEnv name)
  return values.filterMap fun (name, value) => value.map (name, ·)

/-- Run with the given arguments, and give the exit code. -/
def start (arguments : List String) : IO UInt32 := do
  let environment ← readVariables
  let lookup (name : String) : Option String := environment.lookup name
  let mode := Mode.ofArguments arguments
  let input ← match mode with
    | .edit none => (← IO.getStdin).readBinToEnd
    | _ => pure ByteArray.empty
  let known ← lookAtNew [] mode.paths
  let report ← runSeeing (fun files => { arguments, lookup, files, input })
    (Settings.ofEnvironment lookup) known
  IO.print report.out
  IO.eprint report.err
  return report.code.toUInt32

end LiveStack.CommandLine

def main (arguments : List String) : IO UInt32 :=
  LiveStack.CommandLine.start arguments
