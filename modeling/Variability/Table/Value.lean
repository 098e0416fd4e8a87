import Variability.Number.Quantity
import Variability.Number.Shortest

set_option autoImplicit false

namespace Variability.Table

inductive Value where
  | missing
  | flag (b : Bool)
  | number (q : Quantity)
  | text (s : String)
  deriving DecidableEq, Repr

namespace Value

/-- Numbers are written as doubles and flags as one or zero; missing if a number is out of range. -/
def cell? : Value → Option String
  | .missing => some ""
  | .flag b => some (Number.render (.ofInt (if b then 1 else 0)))
  | .number q => q.toDouble?.map Number.render
  | .text s => some s

end Value
end Variability.Table
