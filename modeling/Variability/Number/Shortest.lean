import Variability.Number.Double

/-!
The text of doubles: the fewest digits that read back. The digits chosen lie in the interval of
numbers that round to the given one.
-/

set_option autoImplicit false

namespace Variability.Number

/-- The numbers that round to a positive finite one, counted in quarters of a unit: the two ends and
whether they belong to it. Below a power of two the neighbour is only half as far. -/
structure Interval where
  low : Nat
  high : Nat
  closed : Bool
  deriving DecidableEq, Repr

def Interval.around (units : Nat) : Interval :=
  let gap := Nat.pow 2 (Double.droppedBits units)
  let below := if gap > 1 ∧ units = Nat.pow 2 units.log2 then gap else 2 * gap
  { low := 4 * units - below
    high := 4 * units + 2 * gap
    closed := units / gap % 2 = 0 }

def Interval.contains (i : Interval) (num den : Nat) : Bool :=
  if i.closed then i.low * den ≤ num ∧ num ≤ i.high * den
  else i.low * den < num ∧ num < i.high * den

structure Decimal where
  digits : Nat
  exponent : Int
  deriving DecidableEq, Repr

def Decimal.num (d : Decimal) : Nat := d.digits * Nat.pow 10 d.exponent.toNat * Double.one

def Decimal.den (d : Decimal) : Nat := Nat.pow 10 (-d.exponent).toNat

def Decimal.isIn (d : Decimal) (i : Interval) : Bool := i.contains (4 * d.num) d.den

/-- The number of decimal digits before the point, negative if zeros follow the point. -/
def magnitude (units : Nat) : Int :=
  if units ≥ Double.one then (Nat.toDigits 10 (units / Double.one)).length
  else 1 - (Nat.toDigits 10 ((Double.one - 1) / units)).length

/-- The two neighbours of a number among the decimals with an exponent; the nearer of those in the
interval, of two equally near ones the even one. -/
def nearestWith (units : Nat) (i : Interval) (exponent : Int) : Option Decimal :=
  let scale := Nat.pow 10 exponent.toNat * Double.one
  let num := units * Nat.pow 10 (-exponent).toNat
  let low : Decimal := ⟨num / scale, exponent⟩
  let high : Decimal := ⟨num / scale + 1, exponent⟩
  let inLow := low.isIn i && low.digits ≠ 0
  let inHigh := high.isIn i
  if inLow && inHigh then some (if roundDiv num scale = low.digits then low else high)
  else if inLow then some low
  else if inHigh then some high
  else none

def shortestFrom (units : Nat) (i : Interval) : Nat → Int → Decimal
  | 0, exponent =>
    ⟨units * Nat.pow 10 (-exponent).toNat / (Nat.pow 10 exponent.toNat * Double.one), exponent⟩
  | fuel + 1, exponent => (nearestWith units i exponent).getD (shortestFrom units i fuel (exponent - 1))

/-- The decimal of fewest digits that reads back as the positive number of that many units. -/
def shortest (units : Nat) : Decimal :=
  shortestFrom units (.around units) 18 (magnitude units - 1)

def Decimal.trim : Nat → Decimal → Decimal
  | 0, d => d
  | fuel + 1, d =>
    if d.digits ≠ 0 ∧ d.digits % 10 = 0 then trim fuel ⟨d.digits / 10, d.exponent + 1⟩ else d

/-- From ten thousandths to below ten to the sixteenth a number is written positionally with at
least one digit after the point, otherwise with an exponent of at least two digits. -/
def Decimal.render (d : Decimal) : String :=
  let ds := Nat.toDigits 10 d.digits
  let point : Int := ds.length + d.exponent
  if -4 < point ∧ point ≤ 16 then
    if point ≤ 0 then "0." ++ String.ofList (List.replicate (-point).toNat '0' ++ ds)
    else if ds.length ≤ point then
      String.ofList (ds ++ List.replicate (point - ds.length).toNat '0') ++ ".0"
    else String.ofList (ds.take point.toNat) ++ "." ++ String.ofList (ds.drop point.toNat)
  else
    let e := point - 1
    let es := Nat.toDigits 10 e.natAbs
    let es := if es.length < 2 then '0' :: es else es
    String.ofList (ds.take 1) ++ (if ds.length = 1 then "" else ".") ++ String.ofList (ds.drop 1) ++
      "e" ++ (if e < 0 then "-" else "+") ++ String.ofList es

def render : Double → String
  | .nan => "nan"
  | .infinite s => if s then "-inf" else "inf"
  | .finite s u =>
    (if s then "-" else "") ++ (if u = 0 then "0.0" else ((shortest u).trim 400).render)

/-- The text with a fixed number of digits after the point; the exact value is rounded, a tie to the
even digit. -/
def renderFixed (places : Nat) : Double → String
  | .nan => "nan"
  | .infinite s => if s then "-inf" else "inf"
  | .finite s u =>
    let n := roundDiv (u * Nat.pow 10 places) Double.one
    let fraction := Nat.toDigits 10 (n % Nat.pow 10 places)
    (if s then "-" else "") ++ toString (n / Nat.pow 10 places) ++ "." ++
      String.ofList (List.replicate (places - fraction.length) '0' ++ fraction)

end Variability.Number
