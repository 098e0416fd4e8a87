import Variability.Code.SourceFile
import Variability.Path

set_option autoImplicit false

namespace Variability

/-- Whether a file is listed by its own path or by that of its source, and whether relative to its
folder or to the project. -/
structure Naming where
  bySource : Bool := false
  relative : Bool := false
  deriving DecidableEq, Repr

/-- The name of a file of a folder; missing if a relative form of the empty path is asked for. -/
def Naming.name? (n : Naming) (working folder : String) (f : Code.SourceFile) : Option String :=
  if n.bySource then
    if n.relative ∧ Path.isAbsolute f.sourcePath then
      Path.relative? working f.sourcePath (Path.join folder "..")
    else some f.sourcePath
  else if n.relative then Path.relative? working f.path folder
  else some f.path

end Variability
