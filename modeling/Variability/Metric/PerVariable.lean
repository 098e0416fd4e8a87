import Variability.Metric.Stream
import Variability.Metric.Weights
import Variability.Scattering.Degree
import Variability.Setting

set_option autoImplicit false

namespace Variability

def typeWeight? : String → Option Nat
  | "bool" => some 1
  | "tristate" => some 2
  | "integer" | "hex" => some 10
  | "string" => some 15
  | _ => none

inductive VariableMetric where
  | type (model : Option Model)
  | scattering (degrees : Degrees) (spread : Spread)
  deriving DecidableEq, Repr

namespace VariableMetric

def name : VariableMetric → String
  | .type _ => "Type Weight"
  | .scattering _ .directives => "#ifdef SD"
  | .scattering _ .files => "File SD"

def finding (name : String) (n : Int) : Finding :=
  ⟨⟨.absent, .absent, .absent, .text name⟩, .number (.whole n)⟩

/-- A type without a weight counts one. -/
def typeMessage? (v : Variable) : Option Message :=
  match typeWeight? v.type with
  | none => some (.unknownType v.type v.name)
  | some _ => none

def degreeOf : Spread → Degree → Int
  | .directives, d => d.ifdefs
  | .files, d => d.files

/-- The values of all variables; types must come from a model. -/
def stream (m : VariableMetric) : Stream :=
  match m with
  | .type none => { name := m.name, findings := [], failure := some .modelless }
  | .type (some model) => {
      name := m.name
      findings := model.toList.map fun v => finding v.name ((typeWeight? v.type).getD 1)
      messages := model.toList.filterMap typeMessage? }
  | .scattering degrees spread => {
      name := m.name
      findings := degrees.toList.map fun d => finding d.name (degreeOf spread d) }

end VariableMetric

def Finding.weight? (f : Finding) : Option (String × Quantity) :=
  match f.location.element, f.value with
  | .text name, .number q => some (name, q)
  | _, _ => none

def Weights.ofStream (s : Stream) : Outcome Weights :=
  ⟨s.messages, match s.failure with
    | some e => .error e
    | none => .ok (.ofList (s.findings.filterMap Finding.weight?) none)⟩

end Variability
