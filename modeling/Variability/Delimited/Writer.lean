set_option autoImplicit false

namespace Variability.Delimited

def needsQuotes (separator : Char) (cell : List Char) : Bool :=
  cell.any fun c => c = separator ∨ c = '"' ∨ c = '\n'

def doubleQuotes : List Char → List Char
  | [] => []
  | c :: cs => if c = '"' then '"' :: '"' :: doubleQuotes cs else c :: doubleQuotes cs

def writeCell (separator : Char) (cell : List Char) : List Char :=
  if needsQuotes separator cell then '"' :: doubleQuotes cell ++ ['"'] else cell

def writeCells (separator : Char) : List (List Char) → List Char
  | [] => []
  | [cell] => writeCell separator cell
  | cell :: cells => writeCell separator cell ++ separator :: writeCells separator cells

def writeRow (separator : Char) (cells : List String) : List Char :=
  writeCells separator (cells.map String.toList) ++ ['\n']

def writeRows (rows : List (List String)) : String :=
  String.ofList (rows.flatMap (writeRow ';'))

theorem writeCell_eq_self {separator : Char} {cell : List Char}
    (h : needsQuotes separator cell = false) : writeCell separator cell = cell := by
  simp [writeCell, h]

end Variability.Delimited
