import Variability.Xml.Name

set_option autoImplicit false

namespace Variability.Xml

inductive Reference where
  | char (c : Char)
  | entity (name : String)
  deriving DecidableEq, Repr

def digit? (base : Nat) (c : Char) : Option Nat :=
  let n := c.toNat
  let value :=
    if 48 ≤ n ∧ n ≤ 57 then n - 48
    else if 97 ≤ n ∧ n ≤ 102 then n - 87
    else if 65 ≤ n ∧ n ≤ 70 then n - 55
    else base
  if value < base then some value else none

def codePoint? (base : Nat) (digits : List Char) : Option Nat :=
  if digits = [] then none
  else digits.foldlM (fun n c => (digit? base c).map (n * base + ·)) 0

def referredChar (n : Nat) : Option Char :=
  if 0 < n ∧ n.isValidChar then
    let c := Char.ofNat n
    if isDocumentChar c then some c else none
  else none

def Cursor.reference (c : Cursor) : Option (Reference × Cursor) :=
  match c.rest with
  | '#' :: 'x' :: cs => do
    let (digits, next) ← Cursor.upTo ";" { c with rest := cs }
    let ch ← (codePoint? 16 digits).bind referredChar
    some (.char ch, next)
  | '#' :: cs => do
    let (digits, next) ← Cursor.upTo ";" { c with rest := cs }
    let ch ← (codePoint? 10 digits).bind referredChar
    some (.char ch, next)
  | _ => do
    let (name, next) ← c.name
    let next ← next.expect ";"
    some (.entity name, next)

def predefined? (name : String) : Option Char :=
  [("lt", '<'), ("gt", '>'), ("amp", '&'), ("quot", '"'), ("apos", '\'')].lookup name

/-- The replacement text of an entity: references to characters are replaced at once, those to
entities stay. -/
def replacementText : Nat → List Char → Option (List Char)
  | _, [] => some []
  | 0, _ => none
  | fuel + 1, c :: cs =>
    if c = '%' ∨ !isDocumentChar c then none
    else if c = '&' then do
      let (r, next) ← Cursor.reference ⟨1, cs⟩
      let rest ← replacementText fuel next.rest
      match r with
      | .char ch => some (ch :: rest)
      | .entity name => some ('&' :: name.toList ++ ';' :: rest)
    else (replacementText fuel cs).map (c :: ·)

example : replacementText 9 "&#60;a;&b;".toList = some "<a;&b;".toList := by decide +kernel

end Variability.Xml
