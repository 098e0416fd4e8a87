import Variability.CommandLine.Command
import Variability.Comparison.Report

/-!
The command on a real disk. It holds no rules of its own: what is told, read and written is decided
by the modules it imports.
-/

set_option autoImplicit false

namespace Variability

def fileType? (path : String) : IO (Option IO.FS.FileType) := do
  try
    let place ← IO.FS.realPath path
    return some (← place.metadata).type
  catch _ => return none

def isPlainFile (path : String) : IO Bool := return (← fileType? path) matches some .file

def isPlainFolder (path : String) : IO Bool := return (← fileType? path) matches some .dir

def errorAt (path : String) : IO FileError := do
  if Disk.pathLimit < path.utf8ByteSize ∨
      (Path.parts path).any fun name => Disk.nameLimit < name.utf8ByteSize then return .tooLong
  else if ← isPlainFolder path then return .isFolder
  else if ← isPlainFile (Path.normalize (Path.join path "..")) then return .notFolder
  else return .missing

def readText (path : String) : IO (Except FileError String) := do
  try
    let bytes ← IO.FS.readBinFile path
    return .ok ((String.fromUTF8? bytes).getD "")
  catch _ => return .error (← errorAt path)

def writeText (path text : String) : IO (Except FileError Unit) := do
  try
    IO.FS.writeFile path text
    return .ok ()
  catch _ => return .error (← errorAt path)

partial def walk (path : String) : IO (List (List String)) := do
  let place ← IO.FS.realPath path
  let names := ((← place.readDir).toList.map (·.fileName)).mergeSort (· ≤ ·)
  let files ← names.filterM fun name => isPlainFile (Path.join path name)
  let folders ← names.filterM fun name => isPlainFolder (Path.join path name)
  let nested ← folders.mapM fun name => do
    return (← walk (Path.join path name)).map (name :: ·)
  return files.map ([·]) ++ nested.flatten

instance : Host IO where
  tell message := IO.println message.render
  working := return (← IO.currentDir).toString
  isFile := isPlainFile
  isFolder := isPlainFolder
  read := readText
  write := writeText
  filesBelow := walk
  makeTemporary ending := do
    let place ← IO.FS.createTempDir
    let path := place.toString ++ ending
    IO.FS.rename place path
    return path
  makeFolder path := IO.FS.createDirAll path
  remove path := IO.FS.removeDirAll path

def compareResults (verbose : Bool) (old new : String) : IO UInt32 := do
  match ← readText old, ← readText new with
  | .ok o, .ok n =>
    let (remarks, result) := Comparison.compareFiles verbose o n
    for line in remarks.flatMap Comparison.Remark.lines do
      IO.println line
    match result with
    | .ok same => return if same then 0 else 1
    | .error e =>
      IO.eprintln e.describe
      return 1
  | _, _ =>
    IO.eprintln (FileError.describe .missing)
    return 2

def command (args : List String) : IO UInt32 := do
  let ending : Ending ← runCommand args
  match ending with
  | .exit code => return code.toUInt32
  | .failure cause =>
    IO.eprintln cause.describe
    return 1

end Variability

/-- The word `compare` and two paths compare two result files; anything else is a command line of
the analyses. -/
def main (args : List String) : IO UInt32 :=
  match args with
  | ["compare", "-v", old, new] => Variability.compareResults true old new
  | ["compare", old, new] => Variability.compareResults false old new
  | _ => Variability.command args
