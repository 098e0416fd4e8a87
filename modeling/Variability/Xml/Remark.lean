set_option autoImplicit false

namespace Variability.Xml

inductive Remark where
  | warning
  | error
  deriving DecidableEq, Repr

def Remark.last (earlier later : Option Remark) : Option Remark := later.or earlier

/-- A document is refused if an error is the last thing noticed in it. -/
def Remark.refuses (r : Option Remark) : Bool := r = some .error

end Variability.Xml
