import Variability.Model

set_option autoImplicit false

namespace Variability

/-- In how many directives and in how many files a variable occurs. -/
structure Degree where
  subject : Variable
  ifdefs : Int
  files : Int
  deriving DecidableEq, Repr

namespace Degree

def name (d : Degree) : String := d.subject.name

def describe (d : Degree) : String :=
  "ScatteringDegree(" ++ d.name ++ ", " ++ toString d.ifdefs ++ ", " ++ toString d.files ++ ")"

def none (name : String) : Degree := ⟨⟨name, "unknown"⟩, 0, 0⟩

end Degree

structure Degrees where
  toList : List Degree
  deriving DecidableEq, Repr

namespace Degrees

/-- Of several degrees of a name the last one counts. -/
def ofList (ds : List Degree) : Degrees :=
  ⟨lastByKey Degree.name (ds.mergeSort fun a b => a.name ≤ b.name)⟩

def find? (c : Degrees) (name : String) : Option Degree := c.toList.find? (·.name = name)

def contains (c : Degrees) (name : String) : Bool := (c.find? name).isSome

def get (c : Degrees) (name : String) : Degree := (c.find? name).getD (.none name)

def size (c : Degrees) : Nat := c.toList.length

theorem nodup_names_ofList (ds : List Degree) : ((ofList ds).toList.map Degree.name).Nodup :=
  nodup_keys_lastByKey _ _

end Degrees
end Variability
