/-!
Numbers of the binary64 format, as exact multiples of its least positive number. Every operation is
the exact result rounded once.
-/

set_option autoImplicit false

namespace Variability

/-- The quotient of two natural numbers rounded to the nearest one; a tie goes to the even one. -/
def roundDiv (num den : Nat) : Nat :=
  let q := num / den
  let r := num % den
  if 2 * r < den then q
  else if den < 2 * r then q + 1
  else if q % 2 = 0 then q else q + 1

theorem roundDiv_mul {n d : Nat} (hd : 0 < d) : roundDiv (n * d) d = n := by
  simp [roundDiv, Nat.mul_div_cancel _ hd, Nat.mul_mod_left, hd]

/-- A number of the binary64 format. A finite one counts multiples of 2 ^ (-1074). -/
inductive Double where
  | finite (negative : Bool) (units : Nat)
  | infinite (negative : Bool)
  | nan
  deriving DecidableEq, Repr, Inhabited

namespace Double

def one : Nat := Nat.pow 2 1074

def precision : Nat := 53

def droppedBits (units : Nat) : Nat := units.log2 + 1 - precision

def ofQuotient (negative : Bool) (num den : Nat) : Double :=
  let shift := Nat.pow 2 (droppedBits (num / den))
  let units := roundDiv num (den * shift) * shift
  if units < Nat.pow 2 1024 * one then .finite negative units else .infinite negative

def zero : Double := .finite false 0

def ofInt (n : Int) : Double := ofQuotient (n < 0) (n.natAbs * one) 1

/-- An infinite one is out of range. -/
def inRange? : Double → Option Double
  | .infinite _ => none
  | x => some x

@[simp] theorem inRange?_finite (s : Bool) (u : Nat) :
    inRange? (.finite s u) = some (.finite s u) := rfl

def ofInt? (n : Int) : Option Double := (ofInt n).inRange?

def signed (negative : Bool) (units : Nat) : Int := if negative then -units else units

def neg : Double → Double
  | .finite s u => .finite (!s) u
  | .infinite s => .infinite (!s)
  | .nan => .nan

def abs : Double → Double
  | .finite _ u => .finite false u
  | .infinite _ => .infinite false
  | .nan => .nan

/-- A sum that vanishes is positive unless both numbers are negative. -/
def add : Double → Double → Double
  | .finite s u, .finite t v =>
    let total := signed s u + signed t v
    if total = 0 then .finite (s && t) 0 else ofQuotient (total < 0) total.natAbs 1
  | .nan, _ | _, .nan => .nan
  | .infinite s, .infinite t => if s = t then .infinite s else .nan
  | .infinite s, _ => .infinite s
  | _, .infinite t => .infinite t

def sub (x y : Double) : Double := add x y.neg

def mul : Double → Double → Double
  | .finite s u, .finite t v => ofQuotient (s != t) (u * v) one
  | .nan, _ | _, .nan => .nan
  | .infinite s, .infinite t => .infinite (s != t)
  | .infinite s, .finite t v => if v = 0 then .nan else .infinite (s != t)
  | .finite s u, .infinite t => if u = 0 then .nan else .infinite (s != t)

def div : Double → Double → Double
  | .finite s u, .finite t v =>
    if v = 0 then if u = 0 then .nan else .infinite (s != t)
    else ofQuotient (s != t) (u * one) v
  | .nan, _ | _, .nan => .nan
  | .infinite _, .infinite _ => .nan
  | .infinite s, .finite t _ => .infinite (s != t)
  | .finite s _, .infinite t => .finite (s != t) 0

/-- The largest natural number whose square is at most `n`, by halving the distance between a
bound below and one above. -/
def sqrtBetween (n : Nat) : Nat → Nat → Nat → Nat
  | 0, low, _ => low
  | fuel + 1, low, high =>
    if high ≤ low + 1 then low
    else
      let middle := (low + high) / 2
      if middle * middle ≤ n then sqrtBetween n fuel middle high
      else sqrtBetween n fuel low middle

def sqrtFloor (n : Nat) : Nat := sqrtBetween n (n.log2 + 2) 0 (Nat.pow 2 (n.log2 / 2 + 1))

/-- The root of a number that is no square lies strictly between two naturals; standing half way
between them rounds alike, for there are many more bits than are kept. -/
def sqrt : Double → Double
  | .finite s 0 => .finite s 0
  | .finite true _ => .nan
  | .finite false u =>
    let n := u * one
    let r := sqrtFloor n
    ofQuotient false (2 * r + if r * r = n then 0 else 1) 2
  | .infinite false => .infinite false
  | .infinite true => .nan
  | .nan => .nan

def equal : Double → Double → Bool
  | .finite s u, .finite t v => signed s u = signed t v
  | .infinite s, .infinite t => s = t
  | _, _ => false

def atMost : Double → Double → Bool
  | .finite s u, .finite t v => signed s u ≤ signed t v
  | .nan, _ | _, .nan => false
  | .infinite true, _ => true
  | _, .infinite false => true
  | _, _ => false

end Double
end Variability
