import Variability.Xml.Progress
import Variability.Xml.Reference

/-!
A document as a flat sequence of tags, texts, references, comments and processing instructions,
nothing in them replaced. None of them is empty, so splitting a document ends.
-/

set_option autoImplicit false

namespace Variability.Xml

/-- The line of a start tag is the one on which it ends. Verbatim text comes from a reference to a
character or a literal section. -/
inductive Piece where
  | startTag (name : QName) (attributes : List (QName × List Char)) (closed : Bool) (line : Nat)
  | endTag (name : String)
  | text (chars : List Char)
  | verbatim (chars : List Char)
  | reference (entity : String)
  | comment
  | instruction (target : String)
  deriving Repr

/-- Targets that begin like `xml` are reserved, those with a colon forbidden. -/
def targetRemark (target : String) : Option Remark :=
  if target.toLower = "xml" ∨ target.toList.contains ':' then some .error
  else if target.toLower.startsWith "xml" ∧ target ≠ "xml-stylesheet" ∧ target ≠ "xml-model" then
    some .warning
  else none

def Piece.note : Piece → Reader Unit
  | .instruction target =>
    match targetRemark target with
    | some r => remark r
    | none => pure ()
  | _ => pure ()

namespace Cursor

/-- The attributes of a start tag up to its end, and whether the tag closes itself. Each attribute
follows a space. `fuel` is more than their number. -/
def attributes : Nat → Cursor → Option (List (QName × List Char) × Bool × Cursor)
  | 0, _ => none
  | fuel + 1, c =>
    let d := c.skipSpaces
    match d.rest with
    | '>' :: cs => some ([], false, { d with rest := cs })
    | '/' :: '>' :: cs => some ([], true, { d with rest := cs })
    | _ => do
      let d ← c.expectSpaces
      let (name, d) ← d.qname
      let d ← d.skipSpaces.expect "="
      let (raw, d) ← d.skipSpaces.literal
      let (more, closed, d) ← attributes fuel d
      some ((name, raw) :: more, closed, d)

def startTag (fuel : Nat) (c : Cursor) : Option (Piece × Cursor) := do
  let (name, d) ← c.qname
  let (attrs, closed, d) ← attributes fuel d
  some (.startTag name attrs closed d.line, d)

def endTag (c : Cursor) : Option (Piece × Cursor) := do
  let (name, d) ← c.name
  let d ← d.skipSpaces.expect ">"
  some (.endTag name, d)

def comment (c : Cursor) : Option (Piece × Cursor) := do
  let (text, d) ← c.upTo "--"
  let d ← d.expect ">"
  if text.all isDocumentChar then some (.comment, d) else none

def instruction (c : Cursor) : Option (Piece × Cursor) := do
  let (target, d) ← c.name
  if target = "xml" then none
  else
    match d.rest with
    | '?' :: '>' :: cs => some (.instruction target, { d with rest := cs })
    | _ => do
      let d ← d.expectSpaces
      let (text, d) ← d.upTo "?>"
      if text.all isDocumentChar then some (.instruction target, d) else none

def misc (c : Cursor) : Option (Piece × Cursor) :=
  match c.expect "<!--" with
  | some d => d.comment
  | none => (c.expect "<?").bind instruction

def lineEnds : List Char → List Char
  | [] => []
  | '\r' :: '\n' :: cs => '\n' :: lineEnds cs
  | '\r' :: cs => '\n' :: lineEnds cs
  | c :: cs => c :: lineEnds cs

def literalSection (c : Cursor) : Option (Piece × Cursor) := do
  let (text, d) ← c.upTo "]]>"
  if text.all isDocumentChar then some (.verbatim (lineEnds text), d) else none

def plainText (c : Cursor) : Option (Piece × Cursor) :=
  let (text, d) := c.spanWhile fun x => x ≠ '<' && x ≠ '&'
  if text.all isDocumentChar ∧ (splitAtMark "]]>".toList text).isNone then
    some (.text (lineEnds text), d)
  else none

def referencePiece (c : Cursor) : Option (Piece × Cursor) := do
  let (r, d) ← c.reference
  match r with
  | .char ch => some (.verbatim [ch], d)
  | .entity name =>
    match predefined? name with
    | some ch => some (.verbatim [ch], d)
    | none => some (.reference name, d)

def piece (fuel : Nat) (c : Cursor) : Option (Piece × Cursor) :=
  match c.rest with
  | '<' :: '/' :: cs => endTag { c with rest := cs }
  | '<' :: '!' :: '[' :: 'C' :: 'D' :: 'A' :: 'T' :: 'A' :: '[' :: cs =>
    literalSection { c with rest := cs }
  | '<' :: '!' :: _ | '<' :: '?' :: _ => c.misc
  | '<' :: cs => startTag fuel { c with rest := cs }
  | '&' :: cs => referencePiece { c with rest := cs }
  | _ => c.plainText

def piecesWithin : Nat → Cursor → Option (List Piece)
  | fuel, c =>
    if c.rest = [] then some []
    else
      match fuel with
      | 0 => none
      | fuel + 1 => do
        let (p, d) ← piece (fuel + 1) c
        let ps ← piecesWithin fuel d
        some (p :: ps)

def pieces (c : Cursor) : Option (List Piece) := piecesWithin c.rest.length c

end Cursor
end Variability.Xml
