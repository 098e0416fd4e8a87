import Variability.Analysis.Inputs
import Variability.Analysis.Kind
import Variability.Analysis.Naming
import Variability.Analysis.Report
import Variability.Analysis.Script
import Variability.Analysis.Task
import Variability.Code.Block
import Variability.Code.Builder
import Variability.Code.Document
import Variability.Code.SourceFile
import Variability.CommandLine.Argument
import Variability.CommandLine.Command
import Variability.CommandLine.Options
import Variability.CommandLine.Parser
import Variability.Comparison.Cell
import Variability.Comparison.Report
import Variability.Comparison.ResultFile
import Variability.Condition
import Variability.Condition.Expression
import Variability.Condition.Numerals
import Variability.Condition.Parser
import Variability.Condition.Source
import Variability.Condition.Token
import Variability.Delimited.Plain
import Variability.Delimited.Reader
import Variability.Delimited.Writer
import Variability.Disk.Basic
import Variability.Disk.Host
import Variability.Failure
import Variability.Formula
import Variability.Formula.Names
import Variability.Formula.Truth
import Variability.Given
import Variability.Keyed
import Variability.Main
import Variability.Message
import Variability.Metric.Counted
import Variability.Metric.Nesting
import Variability.Metric.PerFile
import Variability.Metric.PerFunction
import Variability.Metric.PerVariable
import Variability.Metric.Points
import Variability.Metric.Stream
import Variability.Metric.Tangling
import Variability.Metric.Weights
import Variability.Model
import Variability.Number.Double
import Variability.Number.Integer
import Variability.Number.Quantity
import Variability.Number.Reading
import Variability.Number.Shortest
import Variability.Path
import Variability.Proofs.Code.Builder
import Variability.Proofs.Code.Chain
import Variability.Proofs.Code.Mark
import Variability.Scattering.Cache
import Variability.Scattering.Count
import Variability.Scattering.Degree
import Variability.Scattering.Statistics
import Variability.Setting
import Variability.Table.Layout
import Variability.Table.Location
import Variability.Table.Sheet
import Variability.Table.Value
import Variability.Text.Blank
import Variability.Text.Capital
import Variability.Text.Digit
import Variability.Text.Line
import Variability.Text.Printable
import Variability.Text.Quoted
import Variability.VariationPoint
import Variability.Xml.Character
import Variability.Xml.Charset
import Variability.Xml.Charset.Shifted
import Variability.Xml.Charset.UpperHalf
import Variability.Xml.Content
import Variability.Xml.Cursor
import Variability.Xml.Declaration
import Variability.Xml.Doctype
import Variability.Xml.Doctype.Parser
import Variability.Xml.Document
import Variability.Xml.Expansion
import Variability.Xml.Name
import Variability.Xml.Piece
import Variability.Xml.Progress
import Variability.Xml.Reference
import Variability.Xml.Remark
import Variability.Xml.Scope
import Variability.Xml.Uri
import Variability.Xml.Value
import Variability.Proofs.Code.Presence
import Variability.Proofs.Code.Occurrence
import Variability.Proofs.Code.Unfolding
import Variability.Proofs.Code.Balance
import Variability.Proofs.Code.Below
import Variability.Proofs.Code.Element
import Variability.Proofs.Code.Matched
import Variability.Proofs.Code.Level
import Variability.Proofs.Code.Closing
import Variability.Proofs.Code.Ownership
import Variability.Proofs.Code.Layout
import Variability.Proofs.Code.FunctionBlocks
import Variability.Proofs.Condition.Grammar
import Variability.Proofs.Condition.Lexing
import Variability.Proofs.Condition.Levels
import Variability.Proofs.Condition.Numbers
import Variability.Proofs.Condition.Completeness
import Variability.Proofs.Condition.Soundness
import Variability.Proofs.Condition.Overlong
import Variability.Proofs.Condition.Acceptance
import Variability.Proofs.Formula.LeftNested
import Variability.Proofs.Condition.Rendering
import Variability.Proofs.Keyed
import Variability.Proofs.Scattering.Container
import Variability.Proofs.Scattering.Count
import Variability.Proofs.Scattering.Pool
import Variability.Proofs.Path
import Variability.Proofs.Disk.Frame
import Variability.Proofs.Analysis.Effect
import Variability.Proofs.Analysis.Writes
import Variability.Proofs.Analysis.Project
import Variability.Proofs.Analysis.Jobs
import Variability.Proofs.Analysis.Isolation
import Variability.Proofs.Delimited.RoundTrip
import Variability.Proofs.Number.Integer
import Variability.Proofs.Scattering.Cache
import Variability.Proofs.Disk.Walk
import Variability.Proofs.Xml.Unmarked
import Variability.Proofs.Analysis.Parsing
import Variability.Proofs.Analysis.Caching
import Variability.Proofs.Metric.Points
import Variability.Proofs.Table.Order
import Variability.Proofs.Table.Contents
import Variability.Proofs.Table.Collecting
import Variability.Proofs.Table.Join
import Variability.Proofs.VariationPoint.History
import Variability.Proofs.Code.Origin
import Variability.Proofs.Metric.Counted
import Variability.Proofs.Metric.Fresh
import Variability.Proofs.Metric.Branches
import Variability.Proofs.Metric.Consistency
import Variability.Proofs.Number.Exact
import Variability.Proofs.Metric.Weighted
import Variability.Proofs.Number.Rendering
import Variability.Proofs.Comparison.ReadBack
import Variability.Proofs.Delimited.Plain
import Variability.Proofs.Metric.Inheritance
import Variability.Proofs.Metric.Variables
import Variability.Proofs.VariationPoint.Alternative
import Variability.Proofs.Scattering.Rows
import Variability.Proofs.Comparison.Verdict
import Variability.Proofs.Comparison.Symmetry
import Variability.Proofs.Condition.Decoration
import Variability.Proofs.Condition.Calculation
import Variability.Proofs.Metric.Weighing
import Variability.Proofs.Text.Line
import Variability.Proofs.Delimited.Rows
import Variability.Proofs.Model
import Variability.Proofs.Analysis.Result
import Variability.Proofs.Disk.Temporary
import Variability.Proofs.Analysis.Copy
import Variability.Proofs.Analysis.Single
import Variability.Proofs.Disk.Extension
import Variability.Proofs.Disk.Sources
import Variability.Proofs.Disk.Without
import Variability.Proofs.Analysis.Telling
import Variability.Proofs.Analysis.Reading
import Variability.Proofs.Analysis.Broken
import Variability.Proofs.Formula.Compositional
import Variability.Proofs.Formula.Negation
import Variability.Proofs.VariationPoint.Negation
