/-!
Code locations of measured values and their order. A missing part comes before any given one, and a
number and a text at the same place cannot be ordered.
-/

set_option autoImplicit false

namespace Variability.Table

inductive Part where
  | absent
  | number (n : Int)
  | text (s : String)
  deriving DecidableEq, Repr

namespace Part

def cell : Part → String
  | .absent => ""
  | .number n => toString n
  | .text s => s

def describe : Part → String
  | .absent => "None"
  | p => p.cell

def before : Part → Part → Bool
  | .absent, .absent => false
  | .absent, _ => true
  | .number m, .number n => m < n
  | .number _, .text _ => true
  | .text s, .text t => s < t
  | _, _ => false

def clashes : Part → Part → Bool
  | .number _, .text _ => true
  | .text _, .number _ => true
  | _, _ => false

end Part

structure Location where
  source : Part
  included : Part
  line : Part
  element : Part
  deriving DecidableEq, Repr

namespace Location

def parts (l : Location) : List Part := [l.source, l.included, l.line, l.element]

def orderedParts : List Part → List Part → Bool
  | p :: ps, q :: qs => p.before q || p = q && orderedParts ps qs
  | [], _ => true
  | _ :: _, [] => false

def ordered (l m : Location) : Bool := orderedParts l.parts m.parts

def clashingParts : List Part → List Part → Bool
  | p :: ps, q :: qs => p.clashes q || p = q && clashingParts ps qs
  | _, _ => false

def clashes (l m : Location) : Bool := clashingParts l.parts m.parts

end Location
end Variability.Table
