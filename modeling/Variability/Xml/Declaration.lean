import Variability.Xml.Charset
import Variability.Xml.Cursor

/-!
The declaration at the very beginning of a document: a version, a character set and whether the
document stands alone, in this order. What follows the name of the character set is read in it.
-/

set_option autoImplicit false

namespace Variability.Xml

inductive Refusal where
  | illFormed
  | undecodable
  deriving DecidableEq, Repr

def orIllFormed {α : Type} : Option α → Except Refusal α
  | some a => .ok a
  | none => .error .illFormed

namespace Declaration

def setting (name : String) (c : Cursor) : Option (List Char × Cursor) := do
  let d ← c.expectSpaces
  let d ← d.expect name
  let d ← d.skipSpaces.expect "="
  d.skipSpaces.literal

def isVersion (cs : List Char) : Bool :=
  match cs with
  | '1' :: '.' :: digits => digits.all Char.isDigit
  | _ => false

def isCharsetName (cs : List Char) : Bool :=
  match cs with
  | c :: cs => c.isAlpha && cs.all fun c => c.isAlphanum || c = '.' || c = '_' || c = '-'
  | [] => false

def recode (name : List Char) (c : Cursor) : Except Refusal Cursor := do
  let s ← orIllFormed (Charset.ofName? (String.ofList name))
  match s.decode c.rest with
  | some cs => return { c with rest := cs }
  | none => .error .undecodable

def charset (marked : Bool) (c : Cursor) : Except Refusal Cursor :=
  match setting "encoding" c with
  | none => .ok c
  | some (name, c) =>
    if !isCharsetName name then .error .illFormed
    else if marked then .ok c
    else recode name c

def standsAlone (c : Cursor) : Except Refusal (Bool × Cursor) :=
  match setting "standalone" c with
  | none => .ok (false, c)
  | some (value, c) =>
    if value = "yes".toList then .ok (true, c)
    else if value = "no".toList then .ok (false, c)
    else .error .illFormed

/-- Whether the document stands alone, and the place behind the declaration, if there is one. In
`marked` texts the character set is known already. -/
def read (marked : Bool) (c : Cursor) : Except Refusal (Bool × Cursor) := do
  match (c.expect "<?xml").filter fun d => (d.rest.head?.map isSpace).getD false with
  | none => return (false, c)
  | some d =>
    let (version, d) ← orIllFormed (setting "version" d)
    if !isVersion version then .error .illFormed
    else
      let (alone, d) ← standsAlone (← charset marked d)
      return (alone, ← orIllFormed (d.skipSpaces.expect "?>"))

end Declaration
end Variability.Xml
