import Variability.Xml.Doctype
import Variability.Xml.Progress
import Variability.Xml.Reference

/-!
The values of attributes. References are replaced, entities also within entities, and every blank
becomes a space; in values that consist of words spaces only separate these.
-/

set_option autoImplicit false

namespace Variability.Xml

def nestingLimit : Nat := 19

/-- A line end of two characters counts as one line feed. -/
def joinLineEnds : List Char → List Char
  | [] => []
  | '\r' :: '\n' :: cs => '\n' :: joinLineEnds cs
  | c :: cs => c :: joinLineEnds cs

/-- The text that a text between quotation marks spells. No markup may begin in it. `insert` gives
the text of an entity; `fuel` bounds the characters. -/
def valueWith (insert : String → Reader (List Char)) : Nat → List Char → Reader (List Char)
  | _, [] => return []
  | 0, _ => failure
  | fuel + 1, c :: cs =>
    if c = '<' ∨ !isDocumentChar c then failure
    else if c = '&' then do
      let (r, next) ← Cursor.reference ⟨1, cs⟩
      let inserted ← match r with
        | .char ch => pure [ch]
        | .entity name =>
          match predefined? name with
          | some ch => pure [ch]
          | none => insert name
      return inserted ++ (← valueWith insert fuel next.rest)
    else return (if isSpace c then ' ' else c) :: (← valueWith insert fuel cs)

namespace Doctype

def entityText (d : Doctype) (name : String) : Reader (Option (List Char)) :=
  match d.entities.lookup name with
  | some (.text cs) => return some cs
  | some .external | some .unparsed => failure
  | none => do
    if d.isComplete then failure
    remark .error
    return none

def value (d : Doctype) : Nat → List Char → Reader (List Char)
  | 0, text => valueWith (fun _ => failure) text.length text
  | nesting + 1, text =>
    valueWith (fun name => do
      match ← d.entityText name with
      | none => return []
      | some inner => do
        spend inner.length
        value d nesting inner) text.length text

end Doctype

def collapse : List Char → List Char
  | ' ' :: ' ' :: cs => collapse (' ' :: cs)
  | c :: cs => c :: collapse cs
  | [] => []

def words (cs : List Char) : List Char :=
  ((collapse (cs.dropWhile (· = ' '))).reverse.dropWhile (· = ' ')).reverse

example : words "  a   b ".toList = "a b".toList := by decide

/-- Only values of the kind `text` keep their spaces. -/
def AttributeKind.normalize (kind : AttributeKind) (value : List Char) : List Char :=
  if kind = .text then value else words value

def Doctype.attributeValue (d : Doctype) (nesting : Nat) (element name : QName)
    (raw : List Char) : Reader (List Char) := do
  let value ← d.value nesting (joinLineEnds raw)
  return match d.rule? element.written name.written with
    | some r => r.kind.normalize value
    | none => value

end Variability.Xml
