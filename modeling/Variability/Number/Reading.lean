import Variability.Number.Double
import Variability.Number.Integer

set_option autoImplicit false

namespace Variability.Number

/-- The double nearest to `mantissa * 10 ^ exponent`. Beyond the range of the format it is zero or
infinite. -/
def ofDecimal (negative : Bool) (mantissa : Nat) (exponent : Int) : Double :=
  if mantissa = 0 then .finite negative 0
  else
    let length : Int := (mantissa.log2 * 30103 / 100000 : Nat) + 1
    if exponent + length > 400 then .infinite negative
    else if exponent + length < -400 then .finite negative 0
    else if exponent ≥ 0 then .ofQuotient negative (mantissa * Nat.pow 10 exponent.toNat * Double.one) 1
    else .ofQuotient negative (mantissa * Double.one) (Nat.pow 10 (-exponent).toNat)

def readExponent : List Char → Option Int
  | [] => some 0
  | c :: cs =>
    if c = 'e' ∨ c = 'E' then
      let (negative, cs) := splitSign cs
      match Text.digits cs with
      | ([], _) => none
      | (ds, []) => some (if negative then -(Text.decimalValue ds : Int) else Text.decimalValue ds)
      | _ => none
    else none

def readDecimal (negative : Bool) (cs : List Char) : Option Double :=
  let (whole, rest) := Text.digits cs
  let (fraction, rest) := match rest with
    | '.' :: cs => Text.digits cs
    | cs => ([], cs)
  if whole = [] ∧ fraction = [] then none
  else
    (readExponent rest).map fun e =>
      ofDecimal negative (Text.decimalValue (whole ++ fraction)) (e - fraction.length)

def readDouble (text : String) : Option Double :=
  let (negative, cs) := splitSign (stripAround text.toList)
  let name := String.ofList (cs.map Char.toLower)
  if name = "inf" ∨ name = "infinity" then some (.infinite negative)
  else if name = "nan" then some .nan
  else readDecimal negative cs

end Variability.Number
