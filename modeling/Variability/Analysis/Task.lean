import Variability.Analysis.Report
import Variability.Disk.Host
import Variability.Text.Line

set_option autoImplicit false

namespace Variability

variable {m : Type → Type} [Monad m] [Host m] [ParserStack]

def runSteps : List Step → m (Except Failure Unit)
  | [] => return .ok ()
  | .tell message :: steps => do
    Host.tell message
    runSteps steps
  | .write path text :: steps => do
    match ← Host.write path text with
    | .error e => return .error (.file e)
    | .ok () => runSteps steps

def Script.run (s : Script Unit) : m (Except Failure Unit) := do
  match ← runSteps s.steps with
  | .error e => return .error e
  | .ok () => return s.result

/-- The path of a file below a folder. A folder with a path that is too long is not looked into. -/
def listedPath? (top : String) (names : List String) : Option String :=
  if (names.dropLast.foldl Path.join top).utf8ByteSize ≤ Disk.pathLimit then
    some (names.foldl Path.join top)
  else none

def listFiles (folder : String) (endings : List String) : m (List String) := do
  if ← Host.isFolder folder then
    let top := Path.absolute (← Host.working) folder
    let names ← Host.filesBelow folder
    return (names.filter fun ns => endings.contains (Path.ending (ns.getLastD ""))).filterMap
      (listedPath? top)
  else return []

def readSources (folder : String) : m (List (String × Option String)) := do
  let paths ← listFiles folder [".xml"]
  paths.mapM fun path => return (path, (← Host.read path).toOption)

def readIfFile (path : String) : m (Option String) := do
  if ← Host.isFile path then
    match ← Host.read path with
    | .ok text => return some text
    | .error _ => return none
  else return none

def gather (o : Options) (folder : String) : m Inputs := do
  let working ← Host.working
  let sources ← readSources folder
  let model ← match o.modelPath with
    | none => pure none
    | some path => some <$> Host.read path
  let cache ← match o.cachePath with
    | none => pure none
    | some path => readIfFile path
  return { working, folder, sources, model, cache }

def analyseFolder (o : Options) (k : Kind) (folder : String) : m (Except Failure Unit) := do
  let inputs ← gather o folder
  (inputs.analyse o k).run

inductive Task where
  | project (folder : String)
  | single (input output : String)
  | nothing
  deriving DecidableEq, Repr

def Task.isRunnable : Task → Bool
  | .nothing => false
  | _ => true

def copy (source target : String) : m (Except Failure Unit) := do
  match ← Host.read source with
  | .error e => return .error (.file e)
  | .ok text =>
    match ← Host.write target text with
    | .error e => return .error (.file e)
    | .ok () => return .ok ()

/-- The name of the copy of a file that is analysed alone. -/
def copyName (name : String) : String :=
  if ".xml".toList.isSuffixOf name.toList then name else name ++ ".xml"

def analyseCopy (o : Options) (k : Kind) (temporary input output : String) :
    m (Except Failure Unit) := do
  let folder := Path.join temporary sourceFolder
  match ← copy input (Path.join folder (copyName (Path.baseName input))) with
  | .error e => return .error e
  | .ok () =>
    match ← analyseFolder o k folder with
    | .error e => return .error e
    | .ok () =>
      let result := Path.join temporary k.resultFile
      if result = output then return .ok () else copy result output

/-- The end of an analysis is told whether it succeeds or not, and a temporary folder is removed
before. -/
def Task.run (o : Options) (k : Kind) : Task → m (Except Failure Unit)
  | .nothing => do
    Host.tell .noInput
    return .ok ()
  | .project folder => do
    let name := Path.baseName (Path.normalize folder)
    Host.tell (.starting (Setting.label k) name)
    let result ← analyseFolder o k (Path.join folder sourceFolder)
    Host.tell (.finished (Setting.label k) name)
    return result
  | .single input output => do
    let name := Path.baseName input
    let temporary ← Host.makeTemporary sourceFolder
    Host.makeFolder (Path.join temporary sourceFolder)
    Host.tell (.starting (Setting.label k) name)
    let result ← analyseCopy o k temporary input output
    Host.remove temporary
    Host.tell (.finished (Setting.label k) name)
    return result

def runOne (o : Options) (k : Given Kind) (t : Task) : m (Except Failure Unit) :=
  match k with
  | .value k => t.run o k
  | .nothing => return .error .valueless

def runTasks (o : Options) (k : Given Kind) : List Task → m (Except Failure Unit)
  | [] => return .ok ()
  | t :: ts => do
    match ← runOne o k t with
    | .error e => return .error e
    | .ok () => runTasks o k ts

/-- The lines of a list of projects that name one. -/
def projectLines (text : String) : List String :=
  ((Text.splitLines (Text.unifyLineEnds text.toList)).filter fun line =>
    Text.strip line ≠ [] ∧ line.head? ≠ some '#').map String.ofList

def selectFolders : List String → m (List String × List String)
  | [] => return ([], [])
  | path :: paths => do
    let isFolder ← Host.isFolder path
    let (folders, others) ← selectFolders paths
    return if isFolder then (path :: folders, others) else (folders, path :: others)

def tellAll : List Message → m Unit
  | [] => return ()
  | message :: messages => do
    Host.tell message
    tellAll messages

/-- Analyses all projects of a list; lines that name no folder are told first and skipped. -/
def runList (o : Options) (list : String) (k : Given Kind) : m (Except Failure Unit) := do
  match ← Host.read list with
  | .error e => return .error (.file e)
  | .ok text =>
    let (folders, others) ← selectFolders (projectLines text)
    tellAll (others.map .skippedFolder)
    runTasks o k (folders.map fun folder => .project (Path.normalize folder))

def runKinds (o : Options) (list : String) : List (Given Kind) → m (Except Failure Unit)
  | [] => return .ok ()
  | k :: ks => do
    match ← runList o list k with
    | .error e => return .error e
    | .ok () => runKinds o list ks

end Variability
