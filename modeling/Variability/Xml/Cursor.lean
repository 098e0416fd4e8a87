import Variability.Xml.Character

set_option autoImplicit false

namespace Variability.Xml

/-- The text from a place on. Lines are counted from one and end with a line feed. -/
structure Cursor where
  line : Nat
  rest : List Char
  deriving DecidableEq, Repr

namespace Cursor

def lineFeeds (cs : List Char) : Nat := cs.count '\n'

def spanWhile (p : Char → Bool) (c : Cursor) : List Char × Cursor :=
  let taken := c.rest.takeWhile p
  (taken, ⟨c.line + lineFeeds taken, c.rest.dropWhile p⟩)

def skipSpaces (c : Cursor) : Cursor := (c.spanWhile isSpace).2

def expect (text : String) (c : Cursor) : Option Cursor :=
  if text.toList.isPrefixOf c.rest then some { c with rest := c.rest.drop text.length } else none

def expectSpaces (c : Cursor) : Option Cursor :=
  match c.rest with
  | x :: _ => if isSpace x then some c.skipSpaces else none
  | [] => none

def splitAtMark (mark : List Char) : List Char → Option (List Char × List Char)
  | [] => none
  | c :: cs =>
    if mark.isPrefixOf (c :: cs) then some ([], (c :: cs).drop mark.length)
    else (splitAtMark mark cs).map fun (before, after) => (c :: before, after)

def upTo (mark : String) (c : Cursor) : Option (List Char × Cursor) :=
  (splitAtMark mark.toList c.rest).map fun (before, after) =>
    (before, ⟨c.line + lineFeeds before, after⟩)

def literal (c : Cursor) : Option (List Char × Cursor) :=
  match c.rest with
  | '"' :: cs => upTo "\"" { c with rest := cs }
  | '\'' :: cs => upTo "'" { c with rest := cs }
  | _ => none

end Cursor
end Variability.Xml
