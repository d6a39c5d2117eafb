import LiveStack.Machine
import LiveStack.Text.Blank

/-!
# Files

What a program can see of the files around it is a function from paths to what is there. Code is
looked for by name: as a path first and then in each search directory, with the extension of
source files added if the name alone finds nothing.
-/

namespace LiveStack

/-- What is at a path. -/
inductive FileEntry where
  /-- Nothing that can be reached; holds the system's reason. -/
  | missing (reason : String)
  | directory
  /-- A file that can't be read; holds the system's reason. -/
  | unreadable (reason : String)
  | file (content : ByteArray)

/-- What is at each path. -/
abbrev Files := String → FileEntry

namespace Files

/-- Whether there is a file at a path. -/
def isFile (files : Files) (path : String) : Bool :=
  match files path with
  | .file _ | .unreadable _ => true
  | _ => false

/-- The text that bytes stand for. -/
def decode (content : ByteArray) : Except String String :=
  match String.fromUTF8? content with
  | some text => .ok text
  | none => .error "stream did not contain valid UTF-8"

/-- The text of the file at a path, or the system's reason why there is none. -/
def readText (files : Files) (path : String) : Except String String :=
  match files path with
  | .missing reason | .unreadable reason => .error reason
  | .directory => .error "Is a directory (os error 21)"
  | .file content => decode content

/-- A path in a directory. A path from the root stays as it is. -/
def join (directory path : String) : String :=
  if path.toList.head? = some '/' || directory.isEmpty then path
  else if directory.toList.getLast? = some '/' then directory ++ path
  else directory ++ "/" ++ path

/-- The paths where code of a name may be, in the order they are tried. -/
def candidates (searchPaths : List String) (name : String) : List String :=
  let names := [name, name ++ ".brief"]
  names ++ searchPaths.flatMap fun directory => names.map (join directory)

/-- The file that holds the code of a name. -/
def find? (files : Files) (searchPaths : List String) (name : String) : Option String :=
  (candidates searchPaths name).find? files.isFile

/-- The code of a name, if its file can be read as text. -/
def fetch (files : Files) (searchPaths : List String) (name : String) : Option String := do
  let path ← files.find? searchPaths name
  (files.readText path).toOption

/-- The host of a program that finds its code in files. -/
def host (files : Files) (searchPaths : List String) : Host :=
  { fetch := files.fetch searchPaths }

end Files

/-- A directory with all that is in it. Every entry is named by the steps that lead to it; the
directories on the way need no entry of their own. -/
structure FileTree where
  entries : List (List String × FileEntry)

namespace FileTree

/-- The steps of a path that says where an entry goes. -/
def stepsOf (path : String) : List String :=
  ((Text.splitAtEach '/' path.toList).map String.ofList).filter fun step =>
    !(step.isEmpty || step = ".")

/-- The longest name that a file can have, in bytes. -/
def maxNameSize : Nat := 255

/-- The longest path that the system takes, in bytes. -/
def maxPathSize : Nat := 4095

/-- The system's reason for a path that leads nowhere. -/
def notFound : FileEntry := .missing "No such file or directory (os error 2)"

/-- The system's reason for a path that goes on behind a file. -/
def notDirectory : FileEntry := .missing "Not a directory (os error 20)"

/-- The system's reason for a name or a path that is too long. -/
def tooLong : FileEntry := .missing "File name too long (os error 36)"

/-- What is at the end of the given steps, from the top. -/
def at? (tree : FileTree) (steps : List String) : Option FileEntry :=
  match tree.entries.lookup steps with
  | some entry => some entry
  | none =>
      if steps.isEmpty || tree.entries.any fun (path, _) => steps.isPrefixOf path then
        some .directory
      else none

/-- A place that a walk has reached: so many levels above the top, or some steps below it. -/
structure Place where
  above : Nat
  steps : List String

/-- What is at a place. Above the top only the way back up is known. -/
def entryAt (tree : FileTree) (place : Place) : FileEntry :=
  if place.above = 0 then (tree.at? place.steps).getD notFound
  else if place.steps.isEmpty then .directory
  else notFound

/-- Take one step from a place. -/
def Place.step (place : Place) (name : String) : Place :=
  if name.isEmpty || name = "." then place
  else if name = ".." then
    if place.steps.isEmpty then { place with above := place.above + 1 }
    else { place with steps := place.steps.dropLast }
  else { place with steps := place.steps ++ [name] }

/-- Walk along the steps of a path; every place that is left must be a directory. -/
def walk (tree : FileTree) : Place → List String → FileEntry
  | place, [] => tree.entryAt place
  | place, name :: rest =>
      match tree.entryAt place with
      | .directory =>
          if maxNameSize < name.utf8ByteSize then tooLong else tree.walk (place.step name) rest
      | .missing reason => .missing reason
      | _ => notDirectory

/-- What is at a path, as seen from the top of the tree. A path from the root starts above it. -/
def look (tree : FileTree) : Files := fun path =>
  if path.isEmpty then notFound
  else if maxPathSize < path.utf8ByteSize then tooLong
  else
    let start : Place := if path.toList.head? = some '/' then ⟨1, []⟩ else ⟨0, []⟩
    tree.walk start ((Text.splitAtEach '/' path.toList).map String.ofList)

end FileTree

end LiveStack
