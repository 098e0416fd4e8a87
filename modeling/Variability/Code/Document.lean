import Variability.Code.Builder
import Variability.Number.Integer
import Variability.Xml.Document

set_option autoImplicit false

namespace Variability.Code

def directiveSpaces : List String :=
  ["http://www.srcML.org/srcML/cpp", "http://www.sdml.info/srcML/cpp"]

def codeSpaces : List String :=
  ["http://www.srcML.org/srcML/src", "http://www.sdml.info/srcML/src"]

def functionLabels : List String := ["function", "constructor", "destructor"]

def positionName : Xml.Name := ⟨some "http://www.srcML.org/srcML/position", "start"⟩

/-- The namespace and label of an element; a namespace with a line feed in it does not count. -/
def qualified (name : Xml.Name) : Option (String × String) :=
  match name.space with
  | none => none
  | some space => if '\n' ∈ space.toList then none else some (space, name.label)

/-- The line of an element: the number its position begins with, otherwise counted from the root. -/
def elementLine (rootLine : Nat) (tag : Xml.Tag) : Except Fault Int :=
  match tag.attribute? positionName with
  | none | some "" => .ok ((tag.line : Int) - rootLine + 1)
  | some position =>
    match Number.readInteger (String.ofList (position.toList.takeWhile (· ≠ ':'))) with
    | some n => .ok n
    | none => .error .badLine

/-- The name of a function: the text of its first name element. -/
def functionName : Xml.Content → Except Fault String
  | .nil => .ok ""
  | .text _ next | .comment next | .instruction next | .unknown _ next => functionName next
  | .element tag children next =>
    match qualified tag.name with
    | none => .error .unqualified
    | some (space, label) =>
      if label = "name" ∧ codeSpaces.contains space then
        .ok (String.ofList (Text.strip children.chars))
      else functionName next

/-- The text of a directive stands in the second of its descendants, or behind the only one. -/
def directiveText (c : Xml.Content) : Except Fault String :=
  match c.descendants with
  | [] => .ok ""
  | [_] => .ok (String.ofList c.tailText)
  | _ :: some inner :: _ => .ok (String.ofList inner.chars)
  | _ :: none :: _ => .error .textless

inductive Role where
  | function
  | directive (d : Directive)
  | other
  deriving DecidableEq, Repr

def role (space label : String) : Role :=
  if functionLabels.contains label ∧ codeSpaces.contains space then .function
  else if directiveSpaces.contains space then
    match Directive.ofKeyword? label with
    | some d => .directive d
    | none => .other
  else .other

def functionStart (rootLine : Nat) (tag : Xml.Tag) (children : Xml.Content) : Landmark :=
  match functionName children, elementLine rootLine tag with
  | .error fault, _ => .broken fault
  | .ok _, .error fault => .broken fault
  | .ok name, .ok line => .functionStart name line

def directiveMark (rootLine : Nat) (tag : Xml.Tag) (children : Xml.Content) (d : Directive) :
    Landmark :=
  match elementLine rootLine tag with
  | .error fault => .broken fault
  | .ok line => .directive d line (directiveText children)

def landmarks (rootLine : Nat) : Xml.Content → List Landmark
  | .nil => []
  | .text _ next | .comment next | .instruction next | .unknown _ next => landmarks rootLine next
  | .element tag children next =>
    let inside :=
      match qualified tag.name with
      | none => [.broken .unqualified]
      | some (space, label) =>
        match role space label with
        | .function =>
          functionStart rootLine tag children :: landmarks rootLine children ++
            [.functionEnd (children.chars.count '\n')]
        | .directive d =>
          landmarks rootLine children ++ [directiveMark rootLine tag children d]
        | .other => landmarks rootLine children
    inside ++ landmarks rootLine next

def fileNameAttribute : Xml.Name := ⟨none, "filename"⟩

/-- The name of the source: what the root element gives, otherwise the path without its ending. -/
def sourcePathOf (path : String) (root : Xml.Tag) : String :=
  match root.attribute? fileNameAttribute with
  | some name => if name ≠ "" then name else fromPath
  | none => fromPath
where
  fromPath : String :=
    let cs := path.toList
    sourcePathOr path
      (if ".xml".toList.isSuffixOf cs then some (String.ofList (cs.take (cs.length - 4))) else none)

variable [ParserStack]

def ofDocument (path : String) (d : Xml.Document) : Reading SourceFile :=
  assemble path (sourcePathOf path d.tag)
    (landmarks d.tag.line (.element d.tag d.children .nil))

def readSourceFile (path text : String) : Reading SourceFile :=
  match Xml.Document.read text with
  | .error .illFormed => ⟨[], .error .illFormed⟩
  | .error .undecodable => ⟨[], .error .undecodable⟩
  | .ok d => ofDocument path d

def loadSourceFile (path : String) : Option String → Reading SourceFile
  | none => ⟨[], .error .unloadable⟩
  | some text => readSourceFile path text

end Variability.Code
