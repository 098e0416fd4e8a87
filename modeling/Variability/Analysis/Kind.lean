import Variability.Setting

set_option autoImplicit false

namespace Variability

/-- What is measured: the spread of all variables, or values for each function, variable or file. -/
inductive Kind where
  | scattering
  | perFunction
  | perVariable
  | perFile
  deriving DecidableEq, Repr

instance : Setting Kind where
  title := "Kind"
  noun := "kind"
  members := [.scattering, .perFunction, .perVariable, .perFile]
  label
    | .scattering => "scattering"
    | .perFunction => "functions"
    | .perVariable => "variables"
    | .perFile => "files"

def Kind.resultFile : Kind → String
  | .scattering => "scattering_degrees.csv"
  | .perFunction => "function_metrics.csv"
  | .perVariable => "variable_metrics.csv"
  | .perFile => "file_metrics.csv"

def sourceFolder : String := "_cppmetrics"

end Variability
