import Variability.Failure
import Variability.Table.Location
import Variability.Table.Value

set_option autoImplicit false

namespace Variability

structure Finding where
  location : Table.Location
  value : Table.Value
  deriving DecidableEq, Repr

/-- The findings of one metric, what it tells, and why it ends if it ends early. -/
structure Stream where
  name : String
  findings : List Finding
  messages : List Message := []
  failure : Option Failure := none
  deriving DecidableEq, Repr

end Variability
