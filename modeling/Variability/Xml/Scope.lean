import Variability.Xml.Uri
import Variability.Xml.Value

/-!
Start tags and the namespaces that they declare. A qualifier that is not declared stays in the name
and leaves a remark.
-/

set_option autoImplicit false

namespace Variability.Xml

abbrev Scope := List (Option String × String)

def xmlSpace : String := "http://www.w3.org/XML/1998/namespace"
def xmlnsSpace : String := "http://www.w3.org/2000/xmlns/"

inductive Attribute where
  | plain (name : QName) (value : String)
  | declares (qualifier : Option String) (space : String)
  | void
  deriving DecidableEq, Repr

namespace Attribute

/-- The declaration of the default namespace; an empty one undeclares it. -/
def ofDefault (space : String) : Reader Attribute := do
  if space ≠ "" then
    if !Uri.isReference space.toList then remark .error
    else remarkUnless .warning (Uri.isAbsolute space.toList)
  if space = xmlSpace ∨ space = xmlnsSpace then
    remark .error
    return void
  return declares none space

/-- The declaration of a qualifier. The two reserved namespaces keep their qualifiers. -/
def ofQualifier (qualifier space : String) : Reader Attribute := do
  if qualifier = "xml" then
    remarkUnless .error (space = xmlSpace)
    return void
  if qualifier = "xmlns" ∨ space = xmlSpace ∨ space = xmlnsSpace ∨ space = "" then
    remark .error
    return void
  remarkUnless .error (Uri.isReference space.toList)
  return declares (some qualifier) space

def ofRaw (d : Doctype) (nesting : Nat) (element name : QName) (raw : List Char) :
    Reader Attribute := do
  remarkUnless .error name.isProper
  let value := String.ofList (← d.attributeValue nesting element name raw)
  if name = ⟨some "xml", "space"⟩ then
    remarkUnless .warning (value = "default" ∨ value = "preserve")
  match name with
  | ⟨none, "xmlns"⟩ => ofDefault value
  | ⟨some "xmlns", qualifier⟩ => ofQualifier qualifier value
  | _ => return plain name value

def ofPreset (name : QName) (value : List Char) : Attribute :=
  match name with
  | ⟨none, "xmlns"⟩ => declares none (String.ofList value)
  | ⟨some "xmlns", qualifier⟩ => declares (some qualifier) (String.ofList value)
  | _ => plain name (String.ofList value)

def declaration? : Attribute → Option (Option String × String)
  | declares qualifier space => some (qualifier, space)
  | plain _ _ | void => none

def plain? : Attribute → Option (QName × String)
  | plain name value => some (name, value)
  | declares _ _ | void => none

end Attribute

namespace Scope

def space (scope : Scope) (qualifier : String) : Reader (Option String) :=
  if qualifier = "xml" then return some xmlSpace
  else
    match scope.lookup (some qualifier) with
    | some uri => return some uri
    | none => do
      remark .error
      return none

def elementSpace (scope : Scope) (name : QName) : Reader (Option String) :=
  match name.qualifier with
  | some q => scope.space q
  | none => return if scope.lookup none = some "" then none else scope.lookup none

/-- The namespace of an attribute: without a qualifier it has none. -/
def attributeSpace (scope : Scope) (name : QName) : Reader (Option String) :=
  match name.qualifier with
  | some q => scope.space q
  | none => return none

end Scope

structure Located where
  name : QName
  space : Option String
  value : String
  deriving DecidableEq, Repr

namespace Located

def agrees (a b : Located) : Bool := a.name.label = b.name.label ∧ a.space = b.space

def locate (scope : Scope) (name : QName) (value : String) : Reader Located := do
  return ⟨name, ← scope.attributeSpace name, value⟩

/-- No attribute may be given twice; other qualifiers for the same namespace leave a remark. -/
def noteRepeated : List Located → Reader Unit
  | [] => return ()
  | a :: rest => do
    let same := rest.filter a.agrees
    guard (same.all fun b => a.name.qualifier ≠ b.name.qualifier)
    remarkUnless .error same.isEmpty
    noteRepeated rest

def addPreset (scope : Scope) (given : List Located) (name : QName) (value : String) :
    Reader (List Located) := do
  let a ← locate scope name value
  match given.find? a.agrees with
  | none => return given ++ [a]
  | some b =>
    if a.name.qualifier = b.name.qualifier then return given
    remark .error
    return given ++ [a]

def isSimpleName (text : String) : Bool :=
  match Cursor.simpleName (Cursor.skipSpaces ⟨1, text.toList⟩) with
  | some (_, c) => c.rest.all isSpace
  | none => false

def idName : QName := ⟨some "xml", "id"⟩

def isId (d : Doctype) (element name : QName) : Bool :=
  name = idName || ((d.rule? element.written name.written).map (·.kind)) = some .id

def noteId (d : Doctype) (element : QName) (a : Located) : Reader Unit := do
  if a.name = idName then remarkUnless .error (isSimpleName a.value)
  if isId d element a.name && a.value ≠ "" then meetId a.value

end Located

def QName.within (name : QName) (space : Option String) : Name :=
  match space with
  | none => ⟨none, name.written⟩
  | some uri => ⟨some uri, name.label⟩

def Scope.tag (scope : Scope) (d : Doctype) (nesting : Nat) (element : QName)
    (raw : List (QName × List Char)) (line : Nat) : Reader (Tag × Scope) := do
  remarkUnless .error element.isProper
  let attributes ← raw.mapM fun (name, text) => Attribute.ofRaw d nesting element name text
  let declared := attributes.filterMap Attribute.declaration?
  guard (declared.map Prod.fst).Nodup
  let presets := (d.presets element.written).map fun (name, value) => Attribute.ofPreset name value
  let inner : Scope := declared ++ presets.filterMap Attribute.declaration? ++ scope
  let given ← (attributes.filterMap Attribute.plain?).mapM fun (name, value) =>
    Located.locate inner name value
  Located.noteRepeated given
  let all ← (presets.filterMap Attribute.plain?).foldlM
    (fun given (name, value) => Located.addPreset inner given name value) given
  let space ← inner.elementSpace element
  all.forM (Located.noteId d element)
  return (⟨element.within space, all.map fun a => (a.name.within a.space, a.value), line⟩, inner)

end Variability.Xml
