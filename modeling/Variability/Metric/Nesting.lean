import Variability.Metric.Counted
import Variability.Number.Quantity

set_option autoImplicit false

namespace Variability

namespace Code

/-- The depths of the variation points of a level and of all that is nested in it, below `outer`
others. -/
def Forest.depths (model : Option Model) (outer : Nat) : Forest → List Nat
  | .nil => []
  | .block b children next =>
    if b.isPoint model then
      (outer + 1) :: (depths model (outer + 1) children ++ depths model outer next)
    else depths model outer children ++ depths model outer next

theorem Forest.length_depths (model : Option Model) (outer : Nat) (f : Forest) :
    (f.depths model outer).length = f.walk.countP (·.isPoint model) := by
  induction f generalizing outer with
  | nil => rfl
  | block b children next hc hn =>
    by_cases h : b.isPoint model <;> simp [depths, walk, h, hc, hn]

namespace Function

/-- The variation points among the blocks, or only those that begin a chain. -/
def blockCount (model : Option Model) (f : Function) : BlockUnit → Nat
  | .branch => f.blocks.countP (·.isPoint model)
  | .chain => f.blocks.countP fun b => b.isPoint model && b.branch = .first

def nesting (model : Option Model) (f : Function) (summary : DepthSummary) : Quantity :=
  match f.children.depths model 0, summary with
  | [], _ => .zero
  | ds, .deepest => .whole (ds.foldl max 0 : Nat)
  | ds, .average => .real ((Double.ofInt (ds.foldl (· + ·) 0 : Nat)).div (.ofInt ds.length))

end Function
end Code
end Variability
