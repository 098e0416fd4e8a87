import Variability.Failure

/-!
Rows of cells from lines of text. A quotation mark is special only at the start of a cell; a quoted
cell may go on in the next line. An empty line is a row without cells.
-/

set_option autoImplicit false

namespace Variability.Delimited

inductive Place where
  | rowStart
  | cellStart
  | plain
  | quoted
  | quoteSeen
  | ended
  deriving DecidableEq, Repr

/-- A row that is being read: its finished cells and the current one, both latest first. -/
structure Row where
  place : Place
  cells : List (List Char)
  current : List Char
  deriving DecidableEq, Repr

namespace Row

def empty : Row := ⟨.rowStart, [], []⟩

def close (r : Row) (place : Place) : Row := ⟨place, r.current.reverse :: r.cells, []⟩

def push (r : Row) (place : Place) (c : Char) : Row := { r with place, current := c :: r.current }

def isBreak (c : Char) : Bool := c = '\n' ∨ c = '\r'

/-- Reads one character. Text after a closing quotation mark is appended to the cell. -/
def step (separator : Char) (r : Row) (c : Char) : Row :=
  match r.place with
  | .rowStart | .cellStart =>
    if isBreak c then if r.place = .rowStart then { r with place := .ended } else r.close .ended
    else if c = '"' then { r with place := .quoted }
    else if c = separator then r.close .cellStart
    else r.push .plain c
  | .plain =>
    if isBreak c then r.close .ended
    else if c = separator then r.close .cellStart
    else r.push .plain c
  | .quoted => if c = '"' then { r with place := .quoteSeen } else r.push .quoted c
  | .quoteSeen =>
    if c = '"' then r.push .quoted c
    else if c = separator then r.close .cellStart
    else if isBreak c then r.close .ended
    else r.push .plain c
  | .ended => r

def finish (r : Row) : List (List Char) :=
  match r.place with
  | .rowStart | .ended => r.cells.reverse
  | _ => (r.close .ended).cells.reverse

end Row

/-- The rows of some lines, given the beginning of the first row. A quoted cell that is never closed
ends with the last line. -/
def rowsFrom (separator : Char) : Row → List (List Char) → List (List (List Char))
  | r, [] => if r.place = .quoted then [r.finish] else []
  | r, line :: lines =>
    let r := line.foldl (Row.step separator) r
    if r.place = .quoted then rowsFrom separator r lines
    else r.finish :: rowsFrom separator .empty lines

def cellLimit : Nat := 131072

def isNarrow (cells : List String) : Bool := cells.all (·.length ≤ cellLimit)

def row? (cells : List String) : Except Failure (List String) :=
  if isNarrow cells then .ok cells else .error .wideCell

/-- The rows up to the first one with a cell that is too wide. -/
def rows (separator : Char) (lines : List (List Char)) : List (List String) × Option Failure :=
  untilFailure ((rowsFrom separator .empty lines).map fun cells => row? (cells.map String.ofList))

example : rows ';' ["a;\"b;\"\"c\"d;".toList, [], "\"x".toList, "y\";z".toList] =
    ([["a", "b;\"cd", ""], [], ["xy", "z"]], none) := by decide +kernel

/-- The separator that a header line is written with: a semicolon if it has one. -/
def separatorOf (header : List Char) : Char := if header.contains ';' then ';' else ','

end Variability.Delimited
