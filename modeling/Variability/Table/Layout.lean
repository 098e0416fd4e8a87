import Variability.Delimited.Writer
import Variability.Metric.Stream

set_option autoImplicit false

namespace Variability

structure Table.Row where
  location : Table.Location
  values : List Table.Value
  deriving DecidableEq, Repr

structure Table where
  hasIncluded : Bool
  metrics : List String
  rows : List Table.Row
  deriving DecidableEq, Repr

namespace Table

def locationHeader (hasIncluded : Bool) : List String :=
  "Source File" :: (if hasIncluded then ["Included File"] else []) ++ ["Line No.", "Element"]

def header (t : Table) : List String := locationHeader t.hasIncluded ++ t.metrics

def Location.shown (hasIncluded : Bool) (l : Location) : List Part :=
  l.source :: (if hasIncluded then [l.included] else []) ++ [l.line, l.element]

theorem length_shown (hasIncluded : Bool) (l : Location) :
    (l.shown hasIncluded).length = (locationHeader hasIncluded).length := by
  cases hasIncluded <;> rfl

def Row.cells (hasIncluded : Bool) (r : Row) : Except Failure (List String) :=
  match r.values.mapM Value.cell? with
  | some values => .ok ((r.location.shown hasIncluded).map Part.cell ++ values)
  | none => .error .outOfRange

/-- The table as text, its header first. A number that is out of range ends it before its row. -/
def write (t : Table) : String × Option Failure :=
  let (rows, failure) := untilFailure (t.rows.map (Row.cells t.hasIncluded))
  (Delimited.writeRows (t.header :: rows), failure)

end Table
end Variability
