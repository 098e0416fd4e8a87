import Variability.Delimited.Plain
import Variability.Failure
import Variability.Text.Line

set_option autoImplicit false

namespace Variability.Comparison

structure ResultFile where
  separator : Char
  rows : List (List String)
  deriving DecidableEq, Repr

def rowsOf (separator : Char) (lines : List (List Char)) : List (List String) :=
  lines.map fun line => (Delimited.cellsOf separator line).map String.ofList

def hint : List Char := ['s', 'e', 'p', '=']

/-- A first line `sep=` and a character other than an equals sign names the separator of the other
lines. -/
def ResultFile.read (text : String) : Except Failure ResultFile :=
  match Text.splitLines (Text.unifyLineEnds text.toList) with
  | [] => .ok ⟨';', []⟩
  | line :: lines =>
    if hint.isPrefixOf line then
      match line.drop hint.length with
      | [] => .error .separatorless
      | c :: _ =>
        if c = '=' then .error .separatorless else .ok ⟨c, rowsOf c lines⟩
    else .ok ⟨';', rowsOf ';' (line :: lines)⟩

end Variability.Comparison
