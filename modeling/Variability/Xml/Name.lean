import Variability.Xml.Cursor

set_option autoImplicit false

namespace Variability.Xml

/-- A name as written. If its colons do not separate a qualifier from a label, all of it is the
label. -/
structure QName where
  qualifier : Option String
  label : String
  deriving DecidableEq, Repr

def QName.written (name : QName) : String :=
  match name.qualifier with
  | none => name.label
  | some q => q ++ ":" ++ name.label

def QName.isProper (name : QName) : Bool := !name.label.toList.contains ':'

def QName.ofWritten (text : String) : QName :=
  let cs := text.toList
  match cs.dropWhile (· ≠ ':') with
  | _ :: rest =>
    let first := cs.takeWhile (· ≠ ':')
    if first = [] ∨ rest = [] then ⟨none, text⟩
    else ⟨some (String.ofList first), String.ofList rest⟩
  | [] => ⟨none, text⟩

def nameLimit : Nat := 50000

namespace Cursor

def nameWith (first inner : Char → Bool) (c : Cursor) : Option (String × Cursor) :=
  match c.rest with
  | x :: _ =>
    if first x then
      let (letters, next) := c.spanWhile inner
      let name := String.ofList letters
      if name.utf8ByteSize ≤ nameLimit then some (name, next) else none
    else none
  | [] => none

def simpleName (c : Cursor) : Option (String × Cursor) := c.nameWith isNameStart isNameChar

def name (c : Cursor) : Option (String × Cursor) :=
  c.nameWith (fun x => isNameStart x || x = ':') (fun x => isNameChar x || x = ':')

def nameToken (c : Cursor) : Option (String × Cursor) :=
  c.nameWith (fun x => isNameChar x || x = ':') (fun x => isNameChar x || x = ':')

/-- A name with an optional qualifier. What follows a second colon belongs to the label; if no name
follows the first colon, everything is the label. -/
def qname (c : Cursor) : Option (QName × Cursor) :=
  match c.simpleName with
  | none => c.name.map fun (text, next) => (⟨none, text⟩, next)
  | some (first, next) =>
    match next.rest with
    | ':' :: cs => some (afterColon first { next with rest := cs })
    | _ => some (⟨none, first⟩, next)
where
  afterColon (first : String) (c : Cursor) : QName × Cursor :=
    match c.simpleName with
    | none =>
      let (token, next) := c.nameToken.getD ("", c)
      (⟨none, first ++ ":" ++ token⟩, next)
    | some (second, next) =>
      match next.rest with
      | ':' :: cs =>
        let behind : Cursor := { next with rest := cs }
        let (more, next) := behind.name.getD ("", behind)
        (⟨some first, second ++ ":" ++ more⟩, next)
      | _ => (⟨some first, second⟩, next)

end Cursor
end Variability.Xml
