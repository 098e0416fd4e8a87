import Variability.Xml.Piece
import Variability.Xml.Value

/-!
The declarations of a document type as they are written. They are read strictly; what they say about
the structure of elements is not kept.
-/

set_option autoImplicit false

namespace Variability.Xml

namespace Cursor

def isPublicChar (c : Char) : Bool :=
  c = ' ' || c = '\r' || c = '\n' || c.isAlphanum || "-'()+,./:=?;!*#@$_%".toList.contains c

def publicLiteral (c : Cursor) : Option Cursor := do
  let (text, d) ← c.literal
  if text.all isPublicChar then some d else none

def systemLiteral (c : Cursor) : Option (List Char × Cursor) := do
  let (text, d) ← c.literal
  if text.all isDocumentChar then some (text, d) else none

/-- Where something outside the document lies. If `bare`, its public name is enough; otherwise there
is an address. -/
def outside (bare : Bool) (c : Cursor) : Option (List Char × Cursor) :=
  match c.expect "SYSTEM" with
  | some d => d.expectSpaces.bind systemLiteral
  | none => do
    let d ← c.expect "PUBLIC"
    let d ← d.expectSpaces
    let d ← d.publicLiteral
    let address := d.expectSpaces.bind systemLiteral
    if bare ∧ (d.skipSpaces.literal).isNone then some ([], d) else address

def close (c : Cursor) : Option Cursor := c.skipSpaces.expect ">"

def skipOccurrence (c : Cursor) : Cursor :=
  match c.rest with
  | '?' :: cs | '*' :: cs | '+' :: cs => { c with rest := cs }
  | _ => c

def groupLimit : Nat := 256

/-- Goes to the end of open groups. Of each group the separator is known after it has been met;
`item` tells that an item has to come next. `fuel` bounds the items and separators. -/
def groups : Nat → (item : Bool) → List (Option Char) → Cursor → Option Cursor
  | _, _, [], c => some c
  | 0, _, _, _ => none
  | fuel + 1, true, opened, c =>
    let d := c.skipSpaces
    match d.rest with
    | '(' :: cs =>
      if opened.length < groupLimit then groups fuel true (none :: opened) { d with rest := cs }
      else none
    | _ => do
      let (_, d) ← d.name
      groups fuel false opened d.skipOccurrence
  | fuel + 1, false, separator :: around, c =>
    let d := c.skipSpaces
    match d.rest with
    | ')' :: cs => groups fuel false around (skipOccurrence { d with rest := cs })
    | x :: cs =>
      if (x = ',' ∨ x = '|') ∧ (separator = none ∨ separator = some x) then
        groups fuel true (some x :: around) { d with rest := cs }
      else none
    | [] => none

def alternatives (read : Cursor → Option (String × Cursor)) :
    Nat → Cursor → Option (List String × Cursor)
  | 0, _ => none
  | fuel + 1, c =>
    let d := c.skipSpaces
    match d.rest with
    | ')' :: cs => some ([], { d with rest := cs })
    | '|' :: cs => do
      let (name, d) ← read (skipSpaces { d with rest := cs })
      let (more, d) ← alternatives read fuel d
      some (name :: more, d)
    | _ => none

/-- Text among elements, after its mark. If elements are named, a star follows. -/
def mixed (c : Cursor) : Option Cursor := do
  let (names, d) ← c.alternatives name (c.rest.length + 1)
  if names = [] then some (skipStar d) else d.expect "*"
where
  skipStar (c : Cursor) : Cursor := (c.expect "*").getD c

def contentModel (c : Cursor) : Option Cursor :=
  match c.rest with
  | '(' :: cs =>
    let d := skipSpaces { c with rest := cs }
    match d.expect "#PCDATA" with
    | some d => d.mixed
    | none => d.groups (2 * d.rest.length + 1) true [none]
  | _ => (c.expect "EMPTY").or (c.expect "ANY")

def choice (read : Cursor → Option (String × Cursor)) (c : Cursor) :
    Option (List String × Cursor) := do
  let d ← c.expect "("
  let (first, d) ← read d.skipSpaces
  let (more, d) ← d.alternatives read (d.rest.length + 1)
  some (first :: more, d)

def kindNames : List (String × AttributeKind) := [
  ("CDATA", .text), ("IDREFS", .idReferences), ("IDREF", .idReference), ("ID", .id),
  ("ENTITY", .entityName), ("ENTITIES", .entityNames), ("NMTOKENS", .tokens), ("NMTOKEN", .token)]

def attributeKind (c : Cursor) : Option (AttributeKind × Bool × Cursor) :=
  match kindNames.findSome? fun (name, kind) => (c.expect name).map (kind, ·) with
  | some (kind, d) => some (kind, true, d)
  | none =>
    match c.expect "NOTATION" with
    | some d => do
      let d ← d.expectSpaces
      let (names, d) ← d.choice name
      some (.notationName, decide names.Nodup, d)
    | none => do
      let (tokens, d) ← c.choice nameToken
      some (.choice, decide tokens.Nodup, d)

end Cursor

def isWhole (read : Cursor → Option (String × Cursor)) (cs : List Char) : Bool :=
  match read ⟨1, cs⟩ with
  | some (_, d) => d.rest = []
  | none => false

def AttributeKind.admits (kind : AttributeKind) (value : List Char) : Bool :=
  match kind with
  | .text => true
  | .id | .idReference | .entityName | .notationName => isWhole Cursor.name value
  | .token => isWhole Cursor.nameToken value
  | .idReferences | .entityNames => (value.splitOn ' ').all (isWhole Cursor.name)
  | .tokens | .choice => (value.splitOn ' ').all (isWhole Cursor.nameToken)

/-- A predefined entity may only be declared with its own meaning. -/
def mayDeclare (name : String) (e : Entity) : Bool :=
  match predefined? name, e with
  | none, _ => true
  | some c, .text cs =>
    (cs = [c] ∧ c ≠ '<' ∧ c ≠ '&') ∨ cs = "&#".toList ++ Nat.toDigits 10 c.toNat ++ [';'] ∨
      ("&#x".toList.isPrefixOf cs ∧
        (cs.drop 3).map Char.toLower = Nat.toDigits 16 c.toNat ++ [';'])
  | some _, _ => false

namespace Doctype

def plainName (c : Cursor) : Reader (String × Cursor) := do
  let (name, c) ← c.name
  remarkUnless .error (!name.toList.contains ':')
  return (name, ← c.expectSpaces)

def entityMeaning (c : Cursor) : Option (Entity × Cursor) :=
  match c.literal with
  | some (raw, d) => do
    let text ← replacementText raw.length raw
    some (.text text, d)
  | none => do
    let (address, d) ← c.outside false
    if address.contains '#' then none else some (.external, d)

def unparsedMark (c : Cursor) : Option (Entity × Cursor) :=
  match c.rest with
  | '>' :: _ => some (.external, c)
  | _ => do
    let d ← c.expectSpaces
    match d.expect "NDATA" with
    | none => some (.external, d)
    | some d => do
      let d ← d.expectSpaces
      some (.unparsed, (d.name.map Prod.snd).getD d)

def readEntity (d : Doctype) (c : Cursor) : Reader (Doctype × Cursor) := do
  let c ← c.expectSpaces
  match c.rest with
  | '%' :: cs => do
    let (name, c) ← plainName (← Cursor.expectSpaces { c with rest := cs })
    let (meaning, c) ← entityMeaning c
    return (d.addParameter name meaning, ← c.close)
  | _ => do
    let (name, c) ← plainName c
    let (meaning, c) ← entityMeaning c
    let (meaning, c) ← if meaning = .external then unparsedMark c else some (meaning, c)
    let c ← c.close
    guard (mayDeclare name meaning)
    return (d.addEntity name meaning, c)

def readElement (d : Doctype) (c : Cursor) : Reader (Doctype × Cursor) := do
  let (name, c) ← (← c.expectSpaces).name
  let c ← (← c.expectSpaces).contentModel
  let c ← c.close
  remarkUnless .error (!d.elements.contains name)
  return ({ d with elements := name :: d.elements }, c)

def readPreset (d : Doctype) (kind : AttributeKind) (c : Cursor) :
    Reader (Option (List Char) × Cursor) :=
  match (c.expect "#REQUIRED").or (c.expect "#IMPLIED") with
  | some c => return (none, c)
  | none => do
    let c ← match c.expect "#FIXED" with
      | some c => c.expectSpaces
      | none => some c
    let (raw, c) ← c.literal
    let value ← d.value nestingLimit (joinLineEnds raw)
    return (some (kind.normalize value), c)

def noteRule (d : Doctype) (r : AttributeRule) : Reader Unit := do
  remarkUnless .error (r.name ≠ "xml:id" ∨ r.kind = .id)
  remarkUnless .error ((r.preset.map r.kind.admits).getD true)
  if (d.rule? r.element r.name).isSome then remark .warning
  else
    let others := d.attributes.filter fun s => s.element = r.element
    remarkUnless .error (r.kind ≠ .id ∨ others.all fun s => s.kind ≠ .id)

def readRules (element : String) : Nat → Doctype → Cursor → Reader (Doctype × Cursor)
  | 0, _, _ => failure
  | fuel + 1, d, c =>
    match c.rest with
    | '>' :: cs => return (d, { c with rest := cs })
    | _ => do
      let (name, c) ← c.name
      let (kind, distinct, c) ← (← c.expectSpaces).attributeKind
      remarkUnless .error distinct
      let (preset, c) ← d.readPreset kind (← c.expectSpaces)
      let c ← if c.rest.head? = some '>' then some c else c.expectSpaces
      let r : AttributeRule := ⟨element, name, kind, preset⟩
      d.noteRule r
      readRules element fuel (d.addRule r) c

def readAttributes (d : Doctype) (c : Cursor) : Reader (Doctype × Cursor) := do
  let (element, c) ← (← c.expectSpaces).name
  let c := c.skipSpaces
  readRules element (c.rest.length + 1) d c

def readNotation (d : Doctype) (c : Cursor) : Reader (Doctype × Cursor) := do
  let (name, c) ← plainName (← c.expectSpaces)
  let (_, c) ← c.outside true
  let c ← c.close
  remarkUnless .error (!d.notations.contains name)
  return ({ d with notations := name :: d.notations }, c)

def readers : List (String × (Doctype → Cursor → Reader (Doctype × Cursor))) := [
  ("<!ENTITY", readEntity), ("<!ELEMENT", readElement), ("<!ATTLIST", readAttributes),
  ("<!NOTATION", readNotation)]

def readDeclaration (d : Doctype) (c : Cursor) : Reader (Doctype × Cursor) :=
  match readers.findSome? fun (keyword, read) => (c.expect keyword).map (read, ·) with
  | some (read, c) => read d c
  | none => do
    let (p, c) ← c.misc
    p.note
    return (d, c)

/-- Declarations up to the closing bracket or, in a parameter, the end of its text. `insert` reads
the declarations in the text of a parameter; `fuel` bounds their number. -/
def readSubsetWith (insert : Doctype → List Char → Reader Doctype) (inParameter : Bool) :
    Nat → Doctype → Cursor → Reader (Doctype × Cursor)
  | 0, _, _ => failure
  | fuel + 1, d, c =>
    let c := c.skipSpaces
    match c.rest with
    | [] => if inParameter then return (d, c) else failure
    | ']' :: cs => if inParameter then failure else return (d, { c with rest := cs })
    | '%' :: cs => do
      let (name, c) ← Cursor.name { c with rest := cs }
      let c ← c.expect ";"
      let d := { d with hasOutside := true }
      let d ← match d.parameters.lookup name with
        | some (.text text) => do
          spend text.length
          insert d text
        | some _ => do
          remark .warning
          pure d
        | none => do
          if d.isComplete then failure
          remark .error
          pure d
      readSubsetWith insert inParameter fuel d c
    | _ => do
      let (d, c) ← d.readDeclaration c
      readSubsetWith insert inParameter fuel d c

def readSubset : Nat → Bool → Doctype → Cursor → Reader (Doctype × Cursor)
  | 0, inParameter, d, c =>
    readSubsetWith (fun _ _ => failure) inParameter (c.rest.length + 1) d c
  | nesting + 1, inParameter, d, c =>
    let insert := fun d text => do
      let (d, _) ← readSubset nesting true d ⟨1, text⟩
      return d
    readSubsetWith insert inParameter (c.rest.length + 1) d c

def read (d : Doctype) (c : Cursor) : Reader (Doctype × Cursor) := do
  let (_, c) ← (← c.expectSpaces).name
  let c := c.skipSpaces
  let (d, c) ← match c.rest with
    | '[' :: _ | '>' :: _ => pure (d, c)
    | _ => do
      let (_, c) ← c.outside false
      pure ({ d with hasOutside := true }, c.skipSpaces)
  match c.rest with
  | '[' :: cs => do
    let (d, c) ← readSubset nestingLimit false d { c with rest := cs }
    return (d, ← c.close)
  | _ => return (d, ← c.close)

end Doctype
end Variability.Xml
