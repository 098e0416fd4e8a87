import Variability.Metric.Nesting
import Variability.Metric.Points
import Variability.Metric.Stream
import Variability.Metric.Tangling
import Variability.Metric.Weights

set_option autoImplicit false

namespace Variability

inductive FunctionMetric where
  | usage (scope : Scope) (weights : Option Weights)
  | points
  | complexity
  | blocks (unit : BlockUnit)
  | nesting (summary : DepthSummary)
  | tangling (dependence : Dependence) (weights : Option Weights)
  deriving DecidableEq, Repr

namespace FunctionMetric

def name : FunctionMetric → String
  | .usage scope _ => Setting.label scope ++ " Vars per Function"
  | .points => "No. of VPs"
  | .complexity => "CC on VPs"
  | .blocks unit => "No. int. blocks x " ++ Setting.label unit
  | .nesting .deepest => "VP ND_Max"
  | .nesting .average => "VP ND_Avg"
  | .tangling .full _ => "Full-TD"
  | .tangling .visible _ => "Visible-TD"

def value (model : Option Model) (f : Code.Function) : FunctionMetric → Except Failure Quantity
  | .usage scope weights => weigh weights (f.variablesIn model scope)
  | .points => .ok (.whole f.points)
  | .complexity => .ok (.whole f.complexity)
  | .blocks unit => .ok (.whole (f.blockCount model unit))
  | .nesting summary => .ok (f.nesting model summary)
  | .tangling dependence weights => weigh weights (f.tangled model dependence)

def finding (m : FunctionMetric) (model : Option Model) (file : String) (f : Code.Function) :
    Except Failure Finding := do
  let q ← m.value model f
  return ⟨⟨.text file, .absent, .number f.lineStart, .text f.name⟩, .number q⟩

def stream (m : FunctionMetric) (model : Option Model) (nameOf : Code.SourceFile → String)
    (files : List Code.SourceFile) : Stream :=
  let (findings, failure) := untilFailure
    (files.flatMap fun file => file.functions.map (m.finding model (nameOf file)))
  { name := m.name, findings, failure }

end FunctionMetric
end Variability
