import Variability.Metric.PerVariable
import Variability.Code.SourceFile
import Variability.Formula.Names

set_option autoImplicit false

namespace Variability

def Code.SourceFile.occurrences (f : Code.SourceFile) : List String :=
  f.blocks.walk.flatMap fun b => (b.condition.map Formula.occurrences).getD []

/-- Sums up weights, keeping the names that have been found without one in the order in which they
came. -/
abbrev Weighing := ExceptT Failure (StateM (List String))

def Weights.find (w : Weights) (name : String) : Weighing Quantity :=
  match w.find? name with
  | some q => pure q
  | none => do
    modify fun told => if name ∈ told then told else told ++ [name]
    return .real .zero

def addToDouble (sum : Double) (q : Quantity) : Weighing Double :=
  match q.toDouble? with
  | some x => pure (sum.add x)
  | none => throw .outOfRange

def Weights.ofFile (w : Weights) (f : Code.SourceFile) : Weighing Double :=
  addWeights addToDouble w.find .zero f.occurrences

def Weights.ofFiles (w : Weights) (nameOf : Code.SourceFile → String) (told : List String) :
    List Code.SourceFile → List Finding × List String × Option Failure
  | [] => ([], told, none)
  | f :: fs =>
    match (w.ofFile f).run told with
    | (.error e, told) => ([], told, some e)
    | (.ok x, told) =>
      let (findings, told, failure) := w.ofFiles nameOf told fs
      (⟨⟨.text (nameOf f), .absent, .absent, .absent⟩, .number (.real x)⟩ :: findings, told,
        failure)

def weightedName : String := "Weighted Vars"

def weightedBy (metric : String) : String := weightedName ++ " (" ++ metric ++ ")"

def weightedStream (name : String) (w : Weights) (nameOf : Code.SourceFile → String)
    (files : List Code.SourceFile) : Stream :=
  let (findings, told, failure) := w.ofFiles nameOf [] files
  { name, findings, messages := told.map .unknownWeight, failure }

end Variability
