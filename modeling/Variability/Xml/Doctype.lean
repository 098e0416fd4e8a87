import Variability.Xml.Name

/-!
What the document type of a document declares. Of several declarations of one entity or attribute
the first one holds.
-/

set_option autoImplicit false

namespace Variability.Xml

/-- What an entity stands for. Only a text within the document can be inserted. -/
inductive Entity where
  | text (chars : List Char)
  | external
  | unparsed
  deriving DecidableEq, Repr

inductive AttributeKind where
  | text
  | id
  | idReference
  | idReferences
  | entityName
  | entityNames
  | token
  | tokens
  | notationName
  | choice
  deriving DecidableEq, Repr

structure AttributeRule where
  element : String
  name : String
  kind : AttributeKind
  preset : Option (List Char)
  deriving DecidableEq, Repr

structure Doctype where
  entities : List (String × Entity) := []
  parameters : List (String × Entity) := []
  elements : List String := []
  notations : List String := []
  attributes : List AttributeRule := []
  standsAlone : Bool := false
  /-- whether there are declarations elsewhere, or some that depend on parameters -/
  hasOutside : Bool := false
  deriving DecidableEq, Repr

namespace Doctype

def isComplete (d : Doctype) : Bool := d.standsAlone || !d.hasOutside

def addNew {α : Type} (entries : List (String × α)) (name : String) (value : α) :
    List (String × α) :=
  if (entries.lookup name).isSome then entries else entries ++ [(name, value)]

def addEntity (d : Doctype) (name : String) (e : Entity) : Doctype :=
  { d with entities := addNew d.entities name e }

def addParameter (d : Doctype) (name : String) (e : Entity) : Doctype :=
  { d with parameters := addNew d.parameters name e }

def rule? (d : Doctype) (element name : String) : Option AttributeRule :=
  d.attributes.find? fun r => r.element = element ∧ r.name = name

def addRule (d : Doctype) (r : AttributeRule) : Doctype :=
  if (d.rule? r.element r.name).isSome then d
  else { d with attributes := d.attributes ++ [r] }

def presets (d : Doctype) (element : String) : List (QName × List Char) :=
  d.attributes.filterMap fun r =>
    if r.element = element then r.preset.map (QName.ofWritten r.name, ·) else none

end Doctype
end Variability.Xml
