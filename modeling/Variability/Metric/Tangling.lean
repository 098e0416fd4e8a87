import Variability.Metric.Counted

set_option autoImplicit false

namespace Variability.Code

/-- The blocks in the order of the walk, each with the conditions of the earlier branches of its
chain; `earlier` are those before the first block. -/
def Forest.withEarlier (earlier : List Formula) : Forest → List (Block × List Formula)
  | .nil => []
  | .block b children next =>
    let earlier := if b.branch = .first then [] else earlier
    (b, earlier) :: (withEarlier [] children ++ withEarlier (earlier ++ b.condition.toList) next)

theorem Forest.map_fst_withEarlier (earlier : List Formula) (f : Forest) :
    (f.withEarlier earlier).map Prod.fst = f.walk := by
  induction f generalizing earlier with
  | nil => rfl
  | block b children next hc hn => simp [withEarlier, walk, hc, hn]

/-- The condition of a branch: that of its text, after the negated earlier ones if these count. -/
def branchCondition : Dependence → Block × List Formula → Option Formula
  | .visible, (b, _) => b.condition
  | .full, (b, earlier) =>
    some (.conjunction (earlier.map (fun f => some f.negate) ++ [b.condition]))

def Function.tangled (model : Option Model) (f : Function) (d : Dependence) : List String :=
  (f.children.withEarlier []).flatMap fun branch => countedIn model (branchCondition d branch)

end Variability.Code
