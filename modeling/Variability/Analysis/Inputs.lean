import Variability.Analysis.Script
import Variability.CommandLine.Options
import Variability.Code.Document
import Variability.Scattering.Cache
import Variability.Scattering.Count

/-!
What an analysis reads: the source files of a folder, the variability model and earlier scattering
degrees. A file that cannot be parsed is told and skipped.
-/

set_option autoImplicit false

namespace Variability

/-- The texts that an analysis works on. -/
structure Inputs where
  working : String
  folder : String
  /-- the source files with their texts, as far as they can be read -/
  sources : List (String × Option String)
  model : Option (Except FileError String)
  cache : Option String
  deriving Repr

variable [ParserStack]

def parseSources (total : Nat) :
    Nat → List (String × Option String) → Script (List Code.SourceFile)
  | _, [] => pure []
  | number, (path, text) :: rest =>
    let r := Code.loadSourceFile path text
    let told := Script.ofOutcome ⟨r.messages, .ok ()⟩
    match r.result with
    | .ok f => do
      told
      .tell (.readFile number total path)
      return f :: (← parseSources total (number + 1) rest)
    | .error .illFormed => do
      told
      .tell (.unreadableFile path)
      parseSources total (number + 1) rest
    | .error (.unbalanced line) => do
      told
      .tell (.unbalancedFile path (Code.unbalancedText line))
      parseSources total (number + 1) rest
    | .error fault => do
      told
      .fail (.unreadable fault)

/-- Writes degrees to a file, up to the first one that has no text. -/
def Degrees.save (c : Degrees) (path : String) : Script Unit := do
  let (text, failure) := c.write
  .write path text
  .ofExcept (failure.elim (.ok ()) .error)

namespace Inputs

def sourceFiles (i : Inputs) : Script (List Code.SourceFile) :=
  parseSources i.sources.length 1 i.sources

def readModel (i : Inputs) : Script (Option Model) :=
  match i.model with
  | none => pure none
  | some (.ok text) => .ofExcept ((Model.read text).map some)
  | some (.error e) => .fail (.file e)

/-- The degrees in the cache; without a cache file those of the source files, which are then kept in
the cache if there is to be one. -/
def degrees (i : Inputs) (cachePath : Option String) (model : Option Model)
    (files : List Code.SourceFile) : Script Degrees :=
  match cachePath, i.cache with
  | some path, some text => do
    .tell (.readingCache path)
    .ofOutcome (Degrees.read path model text)
  | some path, none => do
    let degrees := countDegrees model files
    .tell (.writingCache path)
    degrees.save path
    return degrees
  | none, _ => return countDegrees model files

def nameOf (i : Inputs) (n : Naming) (f : Code.SourceFile) : String :=
  (n.name? i.working i.folder f).getD f.path

/-- Results are kept next to the folder of the source files. -/
def resultPath (i : Inputs) (k : Kind) : String := Path.beside i.folder k.resultFile

end Inputs
end Variability
