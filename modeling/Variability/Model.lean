import Variability.Keyed
import Variability.Text.Blank
import Variability.Text.Line
import Variability.Delimited.Reader

set_option autoImplicit false

namespace Variability

/-- A declared variable; the type of one that is not declared is unknown. -/
structure Variable where
  name : String
  type : String := "unknown"
  deriving DecidableEq, Repr

def Variable.describe (v : Variable) : String :=
  "VariabilityVariable(" ++ v.name ++ ", " ++ v.type ++ ")"

structure Model where
  toList : List Variable
  deriving DecidableEq, Repr

namespace Model

/-- Of two declarations of a name the last one holds. -/
def ofList (vs : List Variable) : Model := ⟨lastByKey Variable.name vs⟩

def find? (m : Model) (name : String) : Option Variable := m.toList.find? (·.name = name)

def declares (m : Model) (name : String) : Bool := (m.find? name).isSome

theorem nodup_names_ofList (vs : List Variable) : ((ofList vs).toList.map Variable.name).Nodup :=
  nodup_keys_lastByKey _ _

def isContent (line : List Char) : Bool :=
  Text.strip line ≠ [] && line.head? ≠ some '#'

/-- The variable of a row: its first cell, and the second one as type. A row without a name declares
nothing. -/
def variableOfRow : List String → Option Variable
  | [] => none
  | name :: cells =>
    if Text.stripText name = "" then none
    else
      let type := Text.stripText (cells.headD "")
      some ⟨Text.stripText name, if type = "" then "unknown" else type⟩

def read (text : String) : Except Failure Model :=
  match (Text.linesWithEnds text.toList).filter isContent with
  | [] => .ok ⟨[]⟩
  | header :: lines =>
    match Delimited.rows (Delimited.separatorOf header) lines with
    | (_, some failure) => .error failure
    | (rows, none) => .ok (ofList (rows.filterMap variableOfRow))

end Model
end Variability
