import Variability.Xml.Declaration
import Variability.Xml.Doctype.Parser
import Variability.Xml.Expansion

/-!
Whole documents: an optional declaration, an optional document type, one root element, and comments
and processing instructions around it. A text is read as a whole or not at all.
-/

set_option autoImplicit false

namespace Variability.Xml

structure Document where
  tag : Tag
  children : Content
  deriving DecidableEq, Repr

namespace Document

def depthLimit : Nat := 257

def prolog (blank : Doctype) : Nat → Option Doctype → Cursor → Reader (Doctype × Cursor)
  | 0, _, _ => failure
  | fuel + 1, declared, c =>
    let c := c.skipSpaces
    match c.rest with
    | '<' :: '!' :: 'D' :: _ =>
      match declared with
      | some _ => failure
      | none => do
        let (d, c) ← blank.read (← c.expect "<!DOCTYPE")
        prolog blank fuel (some d) c
    | '<' :: '!' :: _ | '<' :: '?' :: _ => do
      let (p, c) ← c.misc
      p.note
      prolog blank fuel declared c
    | _ => return (declared.getD blank, c)

def epilog (ps : List Piece) : Reader Unit :=
  ps.forM fun p =>
    match p with
    | .comment => pure ()
    | .instruction _ => p.note
    | .text cs => guard (cs.all isSpace)
    | _ => failure

def readFrom (alone : Bool) (c : Cursor) : Reader Document := do
  let (d, c) ← prolog { standsAlone := alone } (c.rest.length + 1) none c
  match ← c.pieces with
  | .startTag name attributes closed line :: rest => do
    let (tag, inner) ← Scope.tag [] d nestingLimit name attributes line
    let inside := fun depth rest =>
      contents d nestingLimit (d.expand nestingLimit) (rest.length + 1) depth inner rest
    let (children, rest) ← elementContent inside depthLimit name closed rest
    epilog rest
    return ⟨tag, children⟩
  | _ => failure

def read (text : String) : Except Refusal Document := do
  let cs := text.toList
  let marked := cs.head? = some '\ufeff'
  let (alone, c) ← Declaration.read marked ⟨1, if marked then cs.drop 1 else cs⟩
  let (d, progress) ← orIllFormed ((readFrom alone c).run (Progress.start cs.length))
  if Remark.refuses progress.remark then .error .illFormed else return d

end Document
end Variability.Xml
