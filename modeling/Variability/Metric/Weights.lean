import Variability.Keyed
import Variability.Failure
import Variability.Number.Quantity

set_option autoImplicit false

namespace Variability

structure Weights where
  named : List (String × Quantity)
  other : Option Quantity := none
  deriving DecidableEq, Repr

namespace Weights

def ofList (named : List (String × Quantity)) (other : Option Quantity) : Weights :=
  ⟨lastByKey Prod.fst named, other⟩

def find? (w : Weights) (name : String) : Option Quantity :=
  match w.named.find? (·.1 = name) with
  | some (_, q) => some q
  | none => w.other

def get (w : Weights) (name : String) : Except Failure Quantity :=
  match w.find? name with
  | some q => .ok q
  | none => .error (.weightless name)

end Weights

def addQuantity (a b : Quantity) : Except Failure Quantity :=
  match a.add b with
  | some c => .ok c
  | none => .error .outOfRange

def weigh (weights : Option Weights) (names : List String) : Except Failure Quantity :=
  match weights with
  | none => .ok (.whole names.length)
  | some w => addWeights addQuantity w.get .zero names

end Variability
