import Variability.Setting

set_option autoImplicit false

namespace Variability

inductive Given (α : Type) where
  | value (a : α)
  | nothing
  deriving DecidableEq, Repr

namespace Given

variable {α : Type}

def get? : Given α → Option α
  | .value a => some a
  | .nothing => none

def require [Setting α] : Given α → Except Failure α
  | .value a => .ok a
  | .nothing =>
    .error (.setUp (.unsupported (Setting.title α) "[]" (Setting.labels α)))

end Given
end Variability
