import Variability.Xml.Content
import Variability.Xml.Remark

/-!
What is kept while a document is read: the last remark, how much entities may still insert, the
identifiers met and the entities whose content has been read.
-/

set_option autoImplicit false

namespace Variability.Xml

structure Expansion where
  content : Content
  size : Nat
  deriving DecidableEq, Repr

structure Progress where
  remark : Option Remark := none
  allowance : Nat
  ids : List String := []
  expansions : List (String × Expansion) := []
  deriving Repr

abbrev Reader := StateT Progress Option

def remark (r : Remark) : Reader Unit :=
  modify fun p => { p with remark := Remark.last p.remark (some r) }

def remarkUnless (r : Remark) (kept : Bool) : Reader Unit := if kept then pure () else remark r

/-- Each insertion counts for some characters more than it has. -/
def insertionCost : Nat := 20

def spend (n : Nat) : Reader Unit := fun p =>
  let cost := n + insertionCost
  if cost ≤ p.allowance then some ((), { p with allowance := p.allowance - cost }) else none

def Progress.start (size : Nat) : Progress := { allowance := max 1000000 (5 * size + 4) }

def meetId (id : String) : Reader Unit := do
  if (← get).ids.contains id then remark .error
  else modify fun p => { p with ids := id :: p.ids }

end Variability.Xml
