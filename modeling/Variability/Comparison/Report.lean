import Variability.Comparison.Cell
import Variability.Comparison.ResultFile

set_option autoImplicit false

namespace Variability.Comparison

inductive Colour where
  | red
  | green
  | yellow
  | cyan
  deriving DecidableEq, Repr

def Colour.code : Colour → String
  | .red => "31"
  | .green => "32"
  | .yellow => "33"
  | .cyan => "36"

def paint (c : Colour) (text : String) : String :=
  "\x1b[" ++ c.code ++ "m" ++ text ++ "\x1b[0m"

structure Place where
  line : Nat
  column : Nat
  name : String
  deriving DecidableEq, Repr

def Place.render (p : Place) : String :=
  paint .cyan ("Line " ++ toString p.line ++ ", Column " ++ toString p.column ++ " (" ++ p.name ++
    ")")

inductive Remark where
  | reading
  | separators (old new : Char)
  | comparing
  | lengths (old new : Nat)
  | headers (old new : List String)
  | widths (line old new : Nat)
  | values (place : Place) (old new : String)
  | agreement (place : Place) (value : String)
  | verdict (same : Bool)
  deriving DecidableEq, Repr

namespace Remark

def lines : Remark → List String
  | .reading => ["  " ++ paint .cyan "Reading result files"]
  | .separators old new =>
    ["    " ++ paint .yellow "Separator differs" ++ ": '" ++ old.toString ++ "' and '" ++
      new.toString ++ "'"]
  | .comparing => ["  " ++ paint .cyan "Comparing result files"]
  | .lengths old new =>
    ["    " ++ paint .red "Length mismatch", "    Old table has " ++ toString old ++ " lines",
      "    New table has " ++ toString new ++ " lines"]
  | .headers old new =>
    ["    " ++ paint .red "Header mismatch", "    Old: " ++ ";".intercalate old,
      "    New: " ++ ";".intercalate new]
  | .widths line old new =>
    ["    " ++ paint .red "Column mismatch" ++ " " ++ paint .cyan ("Line " ++ toString line) ++
      " - old: " ++ toString old ++ " columns - new: " ++ toString new ++ " columns"]
  | .values place old new =>
    ["    " ++ paint .red "Value mismatch",
      "    " ++ place.render ++ " - old: '" ++ old ++ "' - new: '" ++ new ++ "'"]
  | .agreement place value =>
    ["    " ++ paint .green "Value match" ++ "    " ++ place.render ++ " - '" ++ value ++ "'"]
  | .verdict true => ["  " ++ paint .green "Success: " ++ "Results are matching"]
  | .verdict false => ["  " ++ paint .red "Fail: " ++ "Results are not matching"]

def isFault : Remark → Bool
  | .lengths .. | .headers .. | .widths .. | .values .. => true
  | _ => false

@[simp] theorem isFault_values (place : Place) (old new : String) :
    isFault (.values place old new) = true := rfl

@[simp] theorem isFault_agreement (place : Place) (value : String) :
    isFault (.agreement place value) = false := rfl

@[simp] theorem isFault_widths (line old new : Nat) : isFault (.widths line old new) = true := rfl

end Remark

def columnName (names : List String) (column : Nat) : String :=
  names.getD column (toString (column + 1))

def compareCells (verbose : Bool) (names : List String) (line : Nat) :
    Nat → List String → List String → List Remark
  | column, old :: olds, new :: news =>
    let place : Place := ⟨line, column + 1, columnName names column⟩
    let rest := compareCells verbose names line (column + 1) olds news
    if !sameCell old new then .values place old new :: rest
    else if verbose then .agreement place old :: rest
    else rest
  | _, _, _ => []

def compareRow (verbose : Bool) (names : List String) (line : Nat) (old new : List String) :
    List Remark :=
  if old.length ≠ new.length then [.widths line old.length new.length]
  else compareCells verbose names line 0 old new

def compareRows (verbose : Bool) (names : List String) :
    Nat → List (List String) → List (List String) → List Remark
  | line, old :: olds, new :: news =>
    compareRow verbose names line old new ++ compareRows verbose names (line + 1) olds news
  | _, _, _ => []

/-- Rows are only compared if both tables have as many of them and the same header. -/
def compareTables (verbose : Bool) (old new : List (List String)) : List Remark :=
  if old.length ≠ new.length then [.lengths old.length new.length]
  else
    match old, new with
    | names :: olds, names' :: news =>
      if names ≠ names' then [.headers names names'] else compareRows verbose names 2 olds news
    | _, _ => []

def sameTables (old new : List (List String)) : Bool :=
  !(compareTables false old new).any Remark.isFault

def compareFiles (verbose : Bool) (old new : String) : List Remark × Except Failure Bool :=
  let start := if verbose then [Remark.reading] else []
  match ResultFile.read old, ResultFile.read new with
  | .error e, _ => (start, .error e)
  | _, .error e => (start, .error e)
  | .ok o, .ok n =>
    let same := sameTables o.rows n.rows
    (start ++ (if o.separator = n.separator then [] else [.separators o.separator n.separator]) ++
      (if verbose then [.comparing] else []) ++ compareTables verbose o.rows n.rows ++
      [.verdict same], .ok same)

end Variability.Comparison
