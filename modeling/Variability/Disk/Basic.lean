import Variability.Failure
import Variability.Keyed
import Variability.Path

set_option autoImplicit false

namespace Variability

abbrev Place := List String

instance Place.lawfulBEq : LawfulBEq Place := inferInstance

inductive Node where
  | file (text : String)
  | folder
  deriving DecidableEq, Repr

/-- What is at each place; the root is always a folder. -/
structure Disk where
  entries : List (Place × Node) := []
  deriving DecidableEq, Repr

namespace Disk

def node? (d : Disk) (place : Place) : Option Node :=
  if place = [] then some .folder else (d.entries.find? (·.1 = place)).map (·.2)

def put (d : Disk) (place : Place) (node : Node) : Disk :=
  ⟨putBy Prod.fst (place, node) d.entries⟩

theorem node?_put_self (d : Disk) {place : Place} (h : place ≠ []) (node : Node) :
    (d.put place node).node? place = some node := by
  have := find_putBy_self Prod.fst (place, node) d.entries
  simp [node?, put, h, this]

theorem node?_put_other (d : Disk) {place other : Place} (h : place ≠ other) (node : Node) :
    (d.put place node).node? other = d.node? other := by
  have := find_putBy_other (κ := Place) Prod.fst (a := (place, node)) (k := other) h d.entries
  simp [node?, put, this]

def nameLimit : Nat := 255

def pathLimit : Nat := 4095

/-- The place that some parts lead to. Everything on the way must be a folder; what is at the place
itself is not asked. -/
def follow (d : Disk) : Place → List String → Except FileError Place
  | place, [] => .ok place
  | place, part :: rest =>
    match d.node? place with
    | none => .error .missing
    | some (.file _) => .error .notFolder
    | some .folder =>
      if nameLimit < part.utf8ByteSize then .error .tooLong
      else
        d.follow
          (if part = "" ∨ part = "." then place
            else if part = ".." then place.dropLast
            else place ++ [part])
          rest

def locate (d : Disk) (working path : String) : Except FileError Place :=
  if path = "" then .error .missing
  else if '\x00' ∈ path.toList then .error .notPath
  else if pathLimit < path.utf8ByteSize then .error .tooLong
  else d.follow [] (Path.parts (Path.join working path))

def isFile (d : Disk) (working path : String) : Bool :=
  match (d.locate working path).map d.node? with
  | .ok (some (.file _)) => true
  | _ => false

def isFolder (d : Disk) (working path : String) : Bool :=
  match (d.locate working path).map d.node? with
  | .ok (some .folder) => true
  | _ => false

def read (d : Disk) (working path : String) : Except FileError String := do
  match d.node? (← d.locate working path) with
  | some (.file text) => .ok text
  | some .folder => .error .isFolder
  | none => .error .missing

def withoutSlashes (path : String) : String :=
  match (path.toList.reverse.dropWhile (· = '/')).reverse with
  | [] => "/"
  | cs => String.ofList cs

/-- The place of a file to be written. A path that ends in a slash can only be a folder. -/
def target (d : Disk) (working path : String) : Except FileError Place := do
  if path.toList.getLast? = some '/' then
    let _ ← d.locate working (withoutSlashes path)
    .error .isFolder
  else
    let place ← d.locate working path
    match d.node? place with
    | some .folder => .error .isFolder
    | _ => .ok place

def write (d : Disk) (working path text : String) : Except FileError Disk :=
  (d.target working path).map fun place => d.put place (.file text)

def makeFolder (d : Disk) (working path : String) : Disk :=
  match d.locate working path with
  | .ok place => if (d.node? place).isSome then d else d.put place .folder
  | .error _ => d

def removeBelow (d : Disk) (place : Place) : Disk :=
  ⟨d.entries.filter fun e => !place.isPrefixOf e.1⟩

theorem node?_removeBelow (d : Disk) {place other : Place} (h : place.isPrefixOf other = false) :
    (d.removeBelow place).node? other = d.node? other := by
  by_cases ho : other = []
  · simp [node?, ho]
  · simp only [node?, ho, if_false, removeBelow]
    congr 1
    induction d.entries with
    | nil => rfl
    | cons e es ih =>
      by_cases he : e.1 = other
      · simp [he, h]
      · by_cases hp : place.isPrefixOf e.1 <;> simp [he, hp, ih]

def remove (d : Disk) (working path : String) : Disk :=
  match d.locate working path with
  | .ok place => d.removeBelow place
  | .error _ => d

/-- The order of a walk: the files of a folder by name, then what is below its folders, these also
by name. -/
def walkOrder : List String → List String → Bool
  | [a], [b] => a ≤ b
  | [_], _ => true
  | _, [_] => false
  | a :: as, b :: bs => a < b || a = b && walkOrder as bs
  | [], _ => true
  | _, [] => false

def below? (place other : Place) : Option (List String) :=
  if place.isPrefixOf other then some (other.drop place.length) else none

def filesBelow (d : Disk) (working path : String) : List (List String) :=
  match d.locate working path with
  | .error _ => []
  | .ok place =>
    if d.node? place ≠ some .folder then []
    else
      (d.entries.filterMap fun (other, node) =>
        match node with
        | .file _ => below? place other
        | .folder => none).mergeSort walkOrder

end Disk
end Variability
