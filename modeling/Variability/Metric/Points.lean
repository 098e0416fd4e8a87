import Variability.VariationPoint
import Variability.Code.SourceFile

set_option autoImplicit false

namespace Variability

namespace PointCounter

/-- Takes the first branch of a chain below a parent's presence condition. Gives also what its
other branches will count as: the alternative recorded for it, or, if it is no new point, its
negated condition below the parent. -/
def addFirst (c : PointCounter) (parent : Option Formula) (b : Code.Block) :
    PointCounter × Option Formula :=
  let d := c.add b.presence
  (d, if c.count < d.count then d.alternatives.head?
    else b.condition.map fun f => Formula.conjunction [parent, some f.negate])

/-- Takes the blocks of one level and all that is nested in them. A later branch of a chain counts
as the alternative that the first one left. -/
def addBlocks (c : PointCounter) (parent alternative : Option Formula) :
    Code.Forest → PointCounter
  | .nil => c
  | .block b children next =>
    let (c, alternative) :=
      if b.branch = .first then c.addFirst parent b else (c.add alternative, alternative)
    (c.addBlocks b.presence none children).addBlocks parent alternative next

end PointCounter

def Code.Function.points (f : Code.Function) : Nat :=
  (PointCounter.addBlocks ⟨f.presence, [], []⟩ f.presence none f.children).count

def Code.Function.complexity (f : Code.Function) : Nat :=
  1 + f.blocks.countP (·.branch ≠ .last)

end Variability
