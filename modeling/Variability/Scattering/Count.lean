import Variability.Formula.Names
import Variability.Code.SourceFile
import Variability.Scattering.Degree

set_option autoImplicit false

namespace Variability

def moduleSuffix : String := "_MODULE"

/-- Both spellings of a tristate variable give the plain one, unless the longer spelling is declared
as a variable of its own. -/
def normalizeName (model : Option Model) (name : String) : String :=
  let cs := name.toList
  if !moduleSuffix.toList.isSuffixOf cs ∨ cs.length = moduleSuffix.length then name
  else if model.any (·.declares name) then name
  else String.ofList (cs.take (cs.length - moduleSuffix.length))

def mentionedIn (model : Option Model) (condition : Option Formula) : List String :=
  firstOccurrences ((conditionNames condition).map (normalizeName model))

/-- The variables that the directives of a file mention, once for each directive. -/
def mentions (model : Option Model) (file : Code.SourceFile) : List String :=
  file.blocks.walk.flatMap fun b => mentionedIn model b.condition

def fileCounts (model : Option Model) (file : Code.SourceFile) : List (String × Int) :=
  let all := mentions model file
  (firstOccurrences all).map fun name => (name, (all.count name : Int))

structure Tally where
  degrees : List Degree
  deriving DecidableEq, Repr

namespace Tally

def start (model : Option Model) : Tally :=
  ⟨((model.map Model.toList).getD []).map fun v => ⟨v, 0, 0⟩⟩

def addCount (model : Option Model) (t : Tally) (count : String × Int) : Tally :=
  let (name, ifdefs) := count
  let d := match t.degrees.find? (·.name = name) with
    | some d => d
    | none => ⟨((model.bind (·.find? name)).getD ⟨name, "unknown"⟩), 0, 0⟩
  ⟨putBy Degree.name { d with ifdefs := d.ifdefs + ifdefs, files := d.files + 1 } t.degrees⟩

def addFile (model : Option Model) (t : Tally) (counts : List (String × Int)) : Tally :=
  counts.foldl (addCount model) t

def degreesOf (t : Tally) : Degrees := .ofList t.degrees

end Tally

def countDegrees (model : Option Model) (files : List Code.SourceFile) : Degrees :=
  (files.foldl (fun t f => t.addFile model (fileCounts model f)) (Tally.start model)).degreesOf

end Variability
