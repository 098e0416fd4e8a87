import Variability.Xml.Piece
import Variability.Xml.Scope

/-!
The content that pieces spell. References to entities are replaced by their content, which is read
at the first of them, outside all scopes, and has to be balanced by itself.
-/

set_option autoImplicit false

namespace Variability.Xml

def elementContent (inside : Nat → List Piece → Reader (Content × List Piece)) (depth : Nat)
    (name : QName) (closed : Bool) (rest : List Piece) : Reader (Content × List Piece) :=
  match depth with
  | 0 => failure
  | depth + 1 =>
    if closed then return (.nil, rest)
    else do
      let (children, rest) ← inside depth rest
      match rest with
      | .endTag other :: rest => if other = name.written then return (children, rest) else failure
      | _ => failure

/-- The nodes up to the end tag of the enclosing element or the end of the pieces; `depth` more
levels may be opened. `insert` gives the content of an entity, `nesting` more of which may stand
within each other. `fuel` bounds the number of pieces. -/
def contents (d : Doctype) (nesting : Nat) (insert : Nat → String → Reader Content) :
    Nat → Nat → Scope → List Piece → Reader (Content × List Piece)
  | 0, _, _, _ => failure
  | fuel + 1, depth, scope, ps =>
    match ps with
    | [] => return (.nil, [])
    | .endTag name :: rest => return (.nil, .endTag name :: rest)
    | .text cs :: rest | .verbatim cs :: rest => do
      let (next, rest) ← contents d nesting insert fuel depth scope rest
      return (.text cs next, rest)
    | .reference name :: rest => do
      let inserted ← insert depth name
      let (next, rest) ← contents d nesting insert fuel depth scope rest
      return (inserted.append next, rest)
    | .comment :: rest => do
      let (next, rest) ← contents d nesting insert fuel depth scope rest
      return (.comment next, rest)
    | .instruction target :: rest => do
      (Piece.instruction target).note
      let (next, rest) ← contents d nesting insert fuel depth scope rest
      return (.instruction next, rest)
    | .startTag name attributes closed line :: rest => do
      let (tag, inner) ← scope.tag d nesting name attributes line
      let inside := fun depth rest => contents d nesting insert fuel depth inner rest
      let (children, rest) ← elementContent inside depth name closed rest
      let (next, rest) ← contents d nesting insert fuel depth scope rest
      return (.element tag children next, rest)

namespace Doctype

/-- The content of the text of an entity, with the help of `insert` for those in it. Its elements
lie one level deeper than the reference. -/
def expandText (d : Doctype) (nesting : Nat) (insert : Nat → String → Reader Content)
    (depth : Nat) (name : String) (text : List Char) : Reader Content :=
  match depth with
  | 0 => failure
  | depth + 1 => do
    let before := (← get).allowance
    spend text.length
    let ps ← Cursor.pieces ⟨1, text⟩
    let (content, rest) ← contents d nesting insert (ps.length + 1) depth [] ps
    guard rest.isEmpty
    modify fun p =>
      let size := before - p.allowance - insertionCost
      { p with expansions := (name, ⟨content, size⟩) :: p.expansions }
    return content

def expand (d : Doctype) : Nat → Nat → String → Reader Content
  | nesting, depth, name => do
    match (← get).expansions.lookup name with
    | some e => do
      spend e.size
      return e.content
    | none => do
      match ← d.entityText name with
      | none => return .unknown name .nil
      | some text =>
        match nesting with
        | 0 => failure
        | nesting + 1 => d.expandText nesting (expand d nesting) depth name text

end Doctype
end Variability.Xml
