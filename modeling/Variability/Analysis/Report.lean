import Variability.Analysis.Inputs
import Variability.Metric.PerFile
import Variability.Metric.PerFunction
import Variability.Scattering.Statistics
import Variability.Table.Sheet

set_option autoImplicit false

namespace Variability.Inputs

variable [ParserStack]

def writeTable (i : Inputs) (k : Kind) (things : String) (streams : List Stream) : Script Unit := do
  let (sheet, messages, failure) := Sheet.collect {} streams
  Script.ofOutcome ⟨messages, failure.elim (.ok ()) .error⟩
  let table ← Script.ofExcept sheet.table
  let (text, failure) := table.write
  Script.write (i.resultPath k) text
  Script.ofExcept (failure.elim (.ok ()) .error)
  Script.tell (.measured table.rows.length things)

def scattering (i : Inputs) (o : Options) : Script Unit := do
  let files ← i.sourceFiles
  let model ← i.readModel
  let degrees := countDegrees model files
  degrees.save (i.resultPath .scattering)
  if let some path := o.cachePath then
    Script.tell (.writingCache path)
    degrees.save path
  match degrees.statistics? with
  | none => Script.fail .outOfRange
  | some s =>
    let text := Number.renderFixed 2
    Script.tell (.degreeStatistics degrees.size (text s.ifdefMean) (text s.ifdefDeviation)
      (text s.fileMean) (text s.fileDeviation))

def functionMetrics (o : Options) : Except Failure (List FunctionMetric) := do
  let scope ← o.scope.require
  let unit ← o.unit.require
  let dependence ← o.dependence.require
  return [.usage scope none, .points, .complexity, .blocks unit, .nesting .deepest,
    .nesting .average, .tangling dependence none]

def perFunction (i : Inputs) (o : Options) : Script Unit := do
  let files ← i.sourceFiles
  let model ← i.readModel
  let metrics ← Script.ofExcept (functionMetrics o)
  i.writeTable .perFunction "functions"
    (metrics.map fun m => m.stream model (i.nameOf o.naming) files)

/-- The source files are not read if the cache has their degrees. -/
def perVariable (i : Inputs) (o : Options) : Script Unit := do
  let model ← i.readModel
  let files ← if i.cache.isSome then pure [] else i.sourceFiles
  let degrees ← i.degrees o.cachePath model files
  let types := match model with
    | none => []
    | some m => [VariableMetric.type (some m)]
  i.writeTable .perVariable "variables"
    (([.scattering degrees .directives, .scattering degrees .files] ++ types).map
      VariableMetric.stream)

def perFile (i : Inputs) (o : Options) : Script Unit := do
  let files ← i.sourceFiles
  let model ← i.readModel
  let degrees ← i.degrees o.cachePath model files
  let types := match model with
    | none => []
    | some m => [VariableMetric.type (some m)]
  let metrics := VariableMetric.scattering degrees .directives :: types
  let streams ← metrics.mapM fun m => do
    let weights ← Script.ofOutcome (Weights.ofStream m.stream)
    return weightedStream (weightedBy m.name) weights (i.nameOf o.naming) files
  i.writeTable .perFile "files" streams

def analyse (i : Inputs) (o : Options) : Kind → Script Unit
  | .scattering => i.scattering o
  | .perFunction => i.perFunction o
  | .perVariable => i.perVariable o
  | .perFile => i.perFile o

end Variability.Inputs
