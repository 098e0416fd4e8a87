import Variability.Text.Blank
import Variability.Text.Digit

set_option autoImplicit false

namespace Variability.Number

/-- The blanks around a number: white space without the information separators. -/
def isBlankAround (c : Char) : Bool := Text.isBlank c && !(28 ≤ c.toNat && c.toNat ≤ 31)

def stripAround (cs : List Char) : List Char :=
  ((cs.dropWhile isBlankAround).reverse.dropWhile isBlankAround).reverse

def splitSign : List Char → Bool × List Char
  | '-' :: cs => (true, cs)
  | '+' :: cs => (false, cs)
  | cs => (false, cs)

def digitLimit : Nat := 4300

def isShort (n : Int) : Bool := (Nat.toDigits 10 n.natAbs).length ≤ digitLimit

/-- The integer that a text spells: blanks, a sign, decimal digits of any script, blanks. -/
def readInteger (text : String) : Option Int :=
  let (negative, cs) := splitSign (stripAround text.toList)
  match Text.digits cs with
  | ([], _) => none
  | (ds, []) =>
    if digitLimit < ds.length then none
    else some (if negative then -(Text.decimalValue ds : Int) else Text.decimalValue ds)
  | _ => none

example : readInteger " -1_0 " = some (-10) := by decide +kernel
example : readInteger "1__0" = none := by decide +kernel

end Variability.Number
