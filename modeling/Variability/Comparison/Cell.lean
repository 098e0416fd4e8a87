import Variability.Number.Reading

set_option autoImplicit false

namespace Variability

namespace Double

/-- The greatest relative difference of two doubles that count as equal. -/
def tolerance : Double := Number.ofDecimal false 1 (-9)

/-- Equal, or finite and apart by at most the tolerance, measured on either of the two. -/
def isClose (x y : Double) : Bool :=
  x.equal y ||
    match x, y with
    | .infinite _, _ | _, .infinite _ => false
    | _, _ =>
      let gap := (y.sub x).abs
      gap.atMost (tolerance.mul y).abs || gap.atMost (tolerance.mul x).abs

end Double

namespace Comparison

/-- Two numbers are compared as doubles, anything else as text. -/
def sameCell (old new : String) : Bool :=
  if old = "" ∨ new = "" then old = new
  else
    match Number.readDouble old, Number.readDouble new with
    | some x, some y => x.isClose y
    | _, _ => old = new

end Comparison
end Variability
