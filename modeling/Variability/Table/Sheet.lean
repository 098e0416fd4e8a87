import Variability.Table.Layout
import Variability.Formula.Names
import Variability.Keyed

set_option autoImplicit false

namespace Variability

namespace Table

structure Entry where
  location : Location
  metric : String
  value : Value
  deriving DecidableEq, Repr

def Entry.key (e : Entry) : Location × String := (e.location, e.metric)

def Entry.message (e : Entry) : Message :=
  .addedTwice e.metric e.location.source.describe e.location.line.describe
    e.location.element.describe

end Table

/-- The metrics in the order in which they came, and one entry per location and metric. -/
structure Sheet where
  metrics : List String := []
  entries : List Table.Entry := []
  deriving DecidableEq, Repr

namespace Sheet

def register (s : Sheet) (metric : String) : Sheet :=
  if metric ∈ s.metrics then s else { s with metrics := s.metrics ++ [metric] }

def find? (s : Sheet) (key : Table.Location × String) : Option Table.Entry :=
  s.entries.find? (·.key = key)

/-- Adds an entry; of two for the same place the last one is kept, which is told. -/
def add (s : Sheet) (e : Table.Entry) : Sheet × List Message :=
  ({ s.register e.metric with entries := putBy Table.Entry.key e s.entries },
    if (s.find? e.key).isSome then [e.message] else [])

def addAll (s : Sheet) : List Table.Entry → Sheet × List Message
  | [] => (s, [])
  | e :: es =>
    let (s, messages) := s.add e
    let (s, more) := s.addAll es
    (s, messages ++ more)

end Sheet

def Finding.entry (metric : String) (f : Finding) : Table.Entry := ⟨f.location, metric, f.value⟩

def Stream.entries (t : Stream) : List Table.Entry := t.findings.map (Finding.entry t.name)

namespace Sheet

/-- Adds the findings of all streams, also of those that fail in the end. -/
def addStreams (s : Sheet) : List Stream → Sheet × List Message
  | [] => (s, [])
  | t :: ts =>
    let (s, messages) := s.addAll t.entries
    let (s, more) := s.addStreams ts
    (s, t.messages ++ messages ++ more)

/-- The metrics of all streams get their columns before any value is added. The first failure of a
stream is kept. -/
def collect (s : Sheet) (streams : List Stream) : Sheet × List Message × Option Failure :=
  let (s, messages) := (streams.foldl (fun s t => s.register t.name) s).addStreams streams
  (s, messages, (streams.filterMap Stream.failure).head?)

theorem mem_metrics_register (s : Sheet) (metric : String) :
    metric ∈ (s.register metric).metrics := by
  by_cases h : metric ∈ s.metrics <;> simp [register, h]

theorem find_add_self (s : Sheet) (e : Table.Entry) : (s.add e).1.find? e.key = some e :=
  find_putBy_self _ _ _

def locations (s : Sheet) : List Table.Location := firstOccurrences (s.entries.map (·.location))

def valueAt (s : Sheet) (l : Table.Location) (metric : String) : Table.Value :=
  ((s.find? (l, metric)).map (·.value)).getD .missing

def row (s : Sheet) (l : Table.Location) : Table.Row := ⟨l, s.metrics.map (s.valueAt l)⟩

def sorted (s : Sheet) : Table :=
  { hasIncluded := s.locations.any fun l => l.included ≠ .absent
    metrics := s.metrics
    rows := (s.locations.mergeSort Table.Location.ordered).map s.row }

/-- The sorted table, unless some locations cannot be ordered. -/
def table (s : Sheet) : Except Failure Table :=
  if s.locations.any fun l => s.locations.any l.clashes then .error .incomparable
  else .ok s.sorted

end Sheet
end Variability
