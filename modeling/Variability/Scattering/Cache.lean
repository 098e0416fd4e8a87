import Variability.Failure
import Variability.Delimited.Writer
import Variability.Number.Integer
import Variability.Scattering.Degree
import Variability.Text.Quoted

set_option autoImplicit false

namespace Variability

namespace Degree

def row (d : Degree) : List String := [d.name, toString d.ifdefs, toString d.files]

def row? (d : Degree) : Except Failure (List String) :=
  if Number.isShort d.ifdefs && Number.isShort d.files then .ok d.row else .error .unwritable

end Degree

namespace Degrees

def header : List String := ["Variable", "#ifdef Count", "File Count"]

/-- The degrees as text, a header first. A count that has no text ends it before its row. -/
def write (c : Degrees) : String × Option Failure :=
  let (rows, failure) := untilFailure (c.toList.map Degree.row?)
  (Delimited.writeRows (header :: rows), failure)

inductive RowResult where
  | kept (d : Degree)
  | dropped
  | malformed
  deriving DecidableEq, Repr

/-- A row without cells is dropped, and so is one whose variable the model does not declare. -/
def ofRow (model : Option Model) : List String → RowResult
  | [] => .dropped
  | name :: ifdefs :: files :: _ =>
    let name := Text.stripText name
    let subject : Option Variable := match model with
      | none => some ⟨name, "unknown"⟩
      | some m => m.find? name
    match subject with
    | none => .dropped
    | some v =>
      match Number.readInteger ifdefs, Number.readInteger files with
      | some i, some f => .kept ⟨v, i, f⟩
      | _, _ => .malformed
  | _ => .malformed

def ofRows (path : String) (model : Option Model) :
    Nat → List (List String) → List Message × List Degree
  | _, [] => ([], [])
  | line, row :: rows =>
    let (messages, degrees) := ofRows path model (line + 1) rows
    match ofRow model row with
    | .kept d => (messages, d :: degrees)
    | .dropped => (messages, degrees)
    | .malformed => (.malformedDegree line path (Text.quoteList row) :: messages, degrees)

/-- The lines behind an optional hint at the separator. -/
def withoutHint : List (List Char) → List (List Char)
  | [] => []
  | line :: lines => if "sep=".toList.isPrefixOf line then lines else line :: lines

/-- The degrees in a text. The rows before a cell that is too wide are still told about. -/
def read (path : String) (model : Option Model) (text : String) : Outcome Degrees :=
  match withoutHint (Text.splitLines text.toList) with
  | [] => ⟨[], .ok (.ofList [])⟩
  | header :: lines =>
    let (rows, failure) := Delimited.rows (Delimited.separatorOf header) lines
    let (messages, degrees) := ofRows path model 2 rows
    ⟨messages, failure.elim (.ok (.ofList degrees)) .error⟩

end Degrees
end Variability
