import Variability.Number.Double

/-!
Quantities: integers that stay exact until they meet a double.
-/

set_option autoImplicit false

namespace Variability

inductive Quantity where
  | whole (n : Int)
  | real (x : Double)
  deriving DecidableEq, Repr

namespace Quantity

def zero : Quantity := .whole 0

def one : Quantity := .whole 1

def toDouble? : Quantity → Option Double
  | .whole n => Double.ofInt? n
  | .real x => some x

def add : Quantity → Quantity → Option Quantity
  | .whole m, .whole n => some (.whole (m + n))
  | a, b => do return .real ((← a.toDouble?).add (← b.toDouble?))

end Quantity

/-- Adds the weights of some names from left to right. Addition and weights may fail or tell
something on the way. -/
def addWeights {m : Type → Type} [Monad m] {α β : Type} (add : α → β → m α) (weight : String → m β)
    (start : α) (names : List String) : m α :=
  names.foldlM (fun sum name => do add sum (← weight name)) start

end Variability
